import Mathlib.Logic.Function.Basic
import Mathlib.Data.Nat.Notation

/-! Scheduler objects and the thread life-cycle helpers of `kernel/sched/sched.h`. -/
namespace Tianole.Sched

/-- Address of a `struct thread`; the null pointer is `none`. -/
abbrev ThreadPtr := ℕ

/-- Address of a `struct wait_queue`. -/
abbrev QueuePtr := ℕ

inductive ThreadState where
  | ready | running | sleeping | waiting | zombie | dead
  deriving DecidableEq, Repr

/-- The panics of the scheduler, the wait queues and the spinlocks. -/
inductive Panic where
  | reentryWhileSwitchLocked | calledWhileSpinlockHeld | calledFromIrqContext
  | nullThreadStateTransition | invalidThreadStateTransition
  | irqExitWithoutEntry
  | invalidReleaseTarget | reapingBeforeDead | reapingOnWaitQueue | reapingWithDeadline
  | reapingWithoutStack
  | exitWithoutCurrent | exitEnteredTwice
  | alreadyQueued | membershipInconsistent | wakeupNonWaiting
  | spinlockContention | invalidSpinlockRelease | spinlockDepthUnderflow
  deriving DecidableEq, Repr

def Panic.text : Panic → String
  | .reentryWhileSwitchLocked => "scheduler reentry while switch locked"
  | .calledWhileSpinlockHeld => "scheduler called while spinlock held"
  | .calledFromIrqContext => "scheduler called from irq context"
  | .nullThreadStateTransition => "null thread state transition"
  | .invalidThreadStateTransition => "invalid thread state transition"
  | .irqExitWithoutEntry => "scheduler irq exit without irq entry"
  | .invalidReleaseTarget => "invalid thread release target"
  | .reapingBeforeDead => "reaping thread before DEAD state"
  | .reapingOnWaitQueue => "reaping thread still on wait queue"
  | .reapingWithDeadline => "reaping thread still has wake deadline"
  | .reapingWithoutStack => "reaping thread without kernel stack"
  | .exitWithoutCurrent => "thread exit without current thread"
  | .exitEnteredTwice => "thread exit entered twice"
  | .alreadyQueued => "thread already queued on wait queue"
  | .membershipInconsistent => "wait queue membership is inconsistent"
  | .wakeupNonWaiting => "wait queue wakeup found non-waiting thread"
  | .spinlockContention => "spinlock recursion or contention"
  | .invalidSpinlockRelease => "invalid spinlock release"
  | .spinlockDepthUnderflow => "spinlock depth underflow"

/-- Ways in which a kernel operation does not return: a panic, a loop over a list that
never ends, or a null pointer that is followed. -/
inductive Stop where
  | panic (p : Panic)
  | hang
  | fault
  deriving DecidableEq, Repr

/-- The scheduler-visible part of `struct thread`. The saved stack pointer belongs to
the machine model; argument and name are not read by the scheduler. -/
structure Thread where
  id : ℕ
  state : ThreadState
  entry : ℕ
  stackBase : ℕ
  stackSize : ℕ
  wakeTick : ℕ
  next : Option ThreadPtr
  waitNext : Option ThreadPtr
  waitQueue : Option QueuePtr
  deriving DecidableEq, Repr

/-- The links of a `struct wait_queue`; its lock is kept in `Locks`. -/
structure WaitQueue where
  head : Option ThreadPtr
  tail : Option ThreadPtr
  deriving DecidableEq, Repr

/-- The globals of `kernel/sched/core.c`, the thread and wait-queue objects, and the tick
counter of `kernel/time/timer.c`. Two fields are bookkeeping: `allocated` records which
thread objects `kmalloc` has handed out, and `created` counts them, which bounds every
walk over the run queue. -/
structure Scheduler where
  thread : ThreadPtr → Thread
  queue : QueuePtr → WaitQueue
  runQueueHead : Option ThreadPtr
  runQueueTail : Option ThreadPtr
  currentThread : Option ThreadPtr
  idleThread : Option ThreadPtr
  nextThreadId : ℕ
  scheduleLocked : Bool
  needResched : Bool
  irqDepth : ℕ
  tickCount : ℕ
  allocated : ThreadPtr → Bool
  created : ℕ

namespace Scheduler

def modifyThread (s : Scheduler) (t : ThreadPtr) (f : Thread → Thread) : Scheduler :=
  { s with thread := Function.update s.thread t (f (s.thread t)) }

def setNext (s : Scheduler) (t : ThreadPtr) (p : Option ThreadPtr) : Scheduler :=
  s.modifyThread t fun x => { x with next := p }

def setWaitNext (s : Scheduler) (t : ThreadPtr) (p : Option ThreadPtr) : Scheduler :=
  s.modifyThread t fun x => { x with waitNext := p }

def modifyQueue (s : Scheduler) (q : QueuePtr) (f : WaitQueue → WaitQueue) : Scheduler :=
  { s with queue := Function.update s.queue q (f (s.queue q)) }

/-- The run-queue link of every thread object. -/
def links (s : Scheduler) : ThreadPtr → Option ThreadPtr := fun t => (s.thread t).next

/-- The wait-queue link of every thread object. -/
def waitLinks (s : Scheduler) : ThreadPtr → Option ThreadPtr := fun t => (s.thread t).waitNext

@[simp] theorem modifyThread_self (s : Scheduler) (t : ThreadPtr) (f : Thread → Thread) :
    (s.modifyThread t f).thread t = f (s.thread t) := Function.update_self _ _ _

theorem modifyThread_of_ne (s : Scheduler) {t u : ThreadPtr} (f : Thread → Thread) (h : u ≠ t) :
    (s.modifyThread t f).thread u = s.thread u := Function.update_of_ne h _ _

theorem modifyThread_thread (s : Scheduler) (t u : ThreadPtr) (f : Thread → Thread) :
    (s.modifyThread t f).thread u = if u = t then f (s.thread t) else s.thread u := by
  by_cases h : u = t
  · subst h; simp
  · simp [h, modifyThread_of_ne]

theorem links_modifyThread (s : Scheduler) (t : ThreadPtr) (f : Thread → Thread) :
    (s.modifyThread t f).links = Function.update s.links t (f (s.thread t)).next := by
  funext u
  by_cases h : u = t
  · subst h; simp [links]
  · simp [links, h, modifyThread_of_ne]

theorem waitLinks_modifyThread (s : Scheduler) (t : ThreadPtr) (f : Thread → Thread) :
    (s.modifyThread t f).waitLinks =
      Function.update s.waitLinks t (f (s.thread t)).waitNext := by
  funext u
  by_cases h : u = t
  · subst h; simp [waitLinks]
  · simp [waitLinks, h, modifyThread_of_ne]

@[simp] theorem links_setNext (s : Scheduler) (t : ThreadPtr) (p : Option ThreadPtr) :
    (s.setNext t p).links = Function.update s.links t p := links_modifyThread _ _ _

@[simp] theorem waitLinks_setNext (s : Scheduler) (t : ThreadPtr) (p : Option ThreadPtr) :
    (s.setNext t p).waitLinks = s.waitLinks := by
  rw [setNext, waitLinks_modifyThread]
  exact Function.update_eq_self t s.waitLinks

@[simp] theorem links_setWaitNext (s : Scheduler) (t : ThreadPtr) (p : Option ThreadPtr) :
    (s.setWaitNext t p).links = s.links := by
  rw [setWaitNext, links_modifyThread]
  exact Function.update_eq_self t s.links

@[simp] theorem waitLinks_setWaitNext (s : Scheduler) (t : ThreadPtr) (p : Option ThreadPtr) :
    (s.setWaitNext t p).waitLinks = Function.update s.waitLinks t p :=
  waitLinks_modifyThread _ _ _

end Scheduler

def threadIsReady (s : Scheduler) (thread : Option ThreadPtr) : Bool :=
  thread.any fun t => (s.thread t).state = .ready

def threadIsRunning (s : Scheduler) (thread : Option ThreadPtr) : Bool :=
  thread.any fun t => (s.thread t).state = .running

def threadIsSleeping (s : Scheduler) (thread : Option ThreadPtr) : Bool :=
  thread.any fun t => (s.thread t).state = .sleeping

def threadIsWaiting (s : Scheduler) (thread : Option ThreadPtr) : Bool :=
  thread.any fun t => (s.thread t).state = .waiting

def threadIsZombie (s : Scheduler) (thread : Option ThreadPtr) : Bool :=
  thread.any fun t => (s.thread t).state = .zombie

def threadIsDead (s : Scheduler) (thread : Option ThreadPtr) : Bool :=
  thread.any fun t => (s.thread t).state = .dead

def threadStateTransitionIsValid (old new : ThreadState) : Bool :=
  if old = new then true
  else match old with
    | .ready => new = .running
    | .running => new = .ready || new = .sleeping || new = .waiting || new = .zombie
    | .sleeping | .waiting => new = .ready || new = .zombie
    | .zombie => new = .dead
    | .dead => false

def threadValidateStateTransition (s : Scheduler) (thread : Option ThreadPtr)
    (state : ThreadState) : Except Stop ThreadPtr :=
  match thread with
  | none => .error (.panic .nullThreadStateTransition)
  | some t =>
      if threadStateTransitionIsValid (s.thread t).state state then .ok t
      else .error (.panic .invalidThreadStateTransition)

/-- The common body of the setters: validate, then write the state and the wake tick. -/
def threadSetWith (s : Scheduler) (thread : Option ThreadPtr) (state : ThreadState)
    (wake : ℕ → ℕ) : Except Stop Scheduler := do
  let t ← threadValidateStateTransition s thread state
  pure (s.modifyThread t fun x => { x with state := state, wakeTick := wake x.wakeTick })

def threadSetReady (s : Scheduler) (thread : Option ThreadPtr) : Except Stop Scheduler :=
  threadSetWith s thread .ready fun _ => 0

/-- The only setter that keeps the wake tick as it is. -/
def threadSetRunning (s : Scheduler) (thread : Option ThreadPtr) : Except Stop Scheduler :=
  threadSetWith s thread .running id

def threadSetSleeping (s : Scheduler) (thread : Option ThreadPtr) (wakeTick : ℕ) :
    Except Stop Scheduler :=
  threadSetWith s thread .sleeping fun _ => wakeTick

def threadSetWaiting (s : Scheduler) (thread : Option ThreadPtr) : Except Stop Scheduler :=
  threadSetWith s thread .waiting fun _ => 0

def threadSetZombie (s : Scheduler) (thread : Option ThreadPtr) : Except Stop Scheduler :=
  threadSetWith s thread .zombie fun _ => 0

def threadSetDead (s : Scheduler) (thread : Option ThreadPtr) : Except Stop Scheduler :=
  threadSetWith s thread .dead fun _ => 0

/-- State of a thread after one of the setters has accepted it. -/
def Scheduler.withState (s : Scheduler) (t : ThreadPtr) (state : ThreadState) (wake : ℕ) : Scheduler :=
  s.modifyThread t fun x => { x with state := state, wakeTick := wake }

theorem threadSetWith_some (s : Scheduler) (t : ThreadPtr) (state : ThreadState) (wake : ℕ → ℕ) :
    threadSetWith s (some t) state wake =
      if threadStateTransitionIsValid (s.thread t).state state then
        .ok (s.withState t state (wake (s.thread t).wakeTick))
      else .error (.panic .invalidThreadStateTransition) := by
  simp only [threadSetWith, threadValidateStateTransition]
  split <;> rfl

section WithState
variable (s : Scheduler) (t u : ThreadPtr) (state : ThreadState) (wake : ℕ)

@[simp] theorem withState_links : (s.withState t state wake).links = s.links := by
  rw [Scheduler.withState, Scheduler.links_modifyThread]
  exact Function.update_eq_self t s.links

@[simp] theorem withState_waitLinks : (s.withState t state wake).waitLinks = s.waitLinks := by
  rw [Scheduler.withState, Scheduler.waitLinks_modifyThread]
  exact Function.update_eq_self t s.waitLinks

theorem withState_thread : (s.withState t state wake).thread u =
    if u = t then { s.thread t with state := state, wakeTick := wake } else s.thread u :=
  Scheduler.modifyThread_thread _ _ _ _

@[simp] theorem withState_waitQueue :
    ((s.withState t state wake).thread u).waitQueue = (s.thread u).waitQueue := by
  rw [withState_thread]
  split <;> simp_all

end WithState

end Tianole.Sched
