import Tianole.Lib.Word
import Tianole.Sched.State

/-! The run queue, the reaper and `sched_yield`, after `kernel/sched/core.c`,
`kernel/sched/thread.c` and `kernel/locking/spinlock.c`. Loops over linked lists carry a
step budget; running out of it is the outcome `Stop.hang`. -/
namespace Tianole.Sched
open Word

/-! ### Run queue -/

def enqueueThread (s : Scheduler) (thread : ThreadPtr) : Scheduler :=
  let s := s.setNext thread none
  let s := match s.runQueueTail with
    | some tail => s.setNext tail (some thread)
    | none => { s with runQueueHead := some thread }
  { s with runQueueTail := some thread }

/-- `thread_is_ready(thread) && thread != idle_thread`. -/
def runnable (s : Scheduler) (t : ThreadPtr) : Bool :=
  threadIsReady s (some t) && decide (some t ≠ s.idleThread)

/-- The first search loop of `next_runnable_thread`, from `start` to the end. -/
def scanToEnd (s : Scheduler) : ℕ → Option ThreadPtr → Except Stop (Option ThreadPtr)
  | _, none => .ok none
  | 0, some _ => .error .hang
  | n + 1, some t =>
      if runnable s t then .ok (some t) else scanToEnd s n (s.thread t).next

/-- The second search loop, from the head up to `start`. -/
def scanUntil (s : Scheduler) (start : Option ThreadPtr) :
    ℕ → Option ThreadPtr → Except Stop (Option ThreadPtr)
  | 0, thread => if thread = start then .ok none else .error .hang
  | n + 1, thread =>
      if thread = start then .ok none
      else match thread with
        | none => .error .fault
        | some t =>
            if runnable s t then .ok (some t) else scanUntil s start n (s.thread t).next

def searchStart (s : Scheduler) : Option ThreadPtr :=
  match s.currentThread with
  | none => s.runQueueHead
  | some c => match (s.thread c).next with
    | none => s.runQueueHead
    | some n => some n

def nextRunnableThread (s : Scheduler) : Except Stop (Option ThreadPtr) := do
  match ← scanToEnd s s.created (searchStart s) with
  | some t => pure (some t)
  | none =>
    match ← scanUntil s (searchStart s) s.created s.runQueueHead with
    | some t => pure (some t)
    | none => pure (if threadIsReady s s.idleThread then s.idleThread else none)

/-! ### Timer -/

def wakeWalk (tick : ℕ) : ℕ → Scheduler → Option ThreadPtr → Except Stop Scheduler
  | _, s, none => .ok s
  | 0, _, some _ => .error .hang
  | n + 1, s, some t => do
      let s ← if threadIsSleeping s (some t) && decide ((s.thread t).wakeTick ≤ tick) then
          threadSetReady s (some t)
        else pure s
      wakeWalk tick n s (s.thread t).next

def wakeSleepingThreads (s : Scheduler) (tick : ℕ) : Except Stop Scheduler :=
  wakeWalk tick s.created s s.runQueueHead

def schedTick (s : Scheduler) (tick : ℕ) : Except Stop Scheduler := do
  let s ← wakeSleepingThreads s tick
  pure (if threadIsRunning s s.currentThread then { s with needResched := true } else s)

def timerTick (s : Scheduler) : Except Stop Scheduler :=
  let s := { s with tickCount := wrap64 (s.tickCount + 1) }
  schedTick s s.tickCount

/-! ### Interrupt-safe spinlocks -/

inductive LockId where
  | scheduler
  | queue (q : QueuePtr)
  deriving DecidableEq, Repr

/-- The CPU's interrupt flag, every lock word, and `spinlock_depth`. -/
structure Locks where
  interruptFlag : Bool
  locked : LockId → Bool
  spinlockDepth : ℕ

/-- Everything the scheduler code reads and writes on the one CPU. -/
structure Kernel where
  sched : Scheduler
  locks : Locks

/-- Returns the saved interrupt flag beside the new lock state. -/
def spinLockIrqsave (k : Locks) (lock : LockId) : Except Stop (Locks × Bool) :=
  if k.locked lock then .error (.panic .spinlockContention)
  else .ok ({ interruptFlag := false, locked := Function.update k.locked lock true,
              spinlockDepth := k.spinlockDepth + 1 }, k.interruptFlag)

/-- `arch_irq_restore` only ever sets the flag; a clear saved flag leaves it as it is. -/
def spinUnlockIrqrestore (k : Locks) (lock : LockId) (flags : Bool) : Except Stop Locks :=
  if !k.locked lock then .error (.panic .invalidSpinlockRelease)
  else if k.spinlockDepth = 0 then .error (.panic .spinlockDepthUnderflow)
  else .ok { interruptFlag := if flags then true else k.interruptFlag,
             locked := Function.update k.locked lock false,
             spinlockDepth := k.spinlockDepth - 1 }

/-- One critical section: acquire, run the body on the scheduler objects, release. -/
def withLock {α : Type} (k : Kernel) (lock : LockId)
    (body : Scheduler → Except Stop (Scheduler × α)) : Except Stop (Kernel × α) := do
  let (locks, flags) ← spinLockIrqsave k.locks lock
  let (s, a) ← body k.sched
  let locks ← spinUnlockIrqrestore locks lock flags
  pure (⟨s, locks⟩, a)

def schedAssertCanSwitch (k : Kernel) : Except Stop Unit :=
  if k.sched.scheduleLocked then .error (.panic .reentryWhileSwitchLocked)
  else if k.locks.spinlockDepth ≠ 0 then .error (.panic .calledWhileSpinlockHeld)
  else if k.sched.irqDepth ≠ 0 then .error (.panic .calledFromIrqContext)
  else .ok ()

/-! ### Thread creation and reclamation -/

def kernelStackSize : ℕ := 4096 * 4

/-- The initialised thread object, not yet on the run queue. -/
def initThread (s : Scheduler) (t : ThreadPtr) (entry stack : ℕ) : Scheduler :=
  { s with
    thread := Function.update s.thread t
      { id := s.nextThreadId, state := .ready, entry := entry, stackBase := stack,
        stackSize := kernelStackSize, wakeTick := 0, next := none, waitNext := none,
        waitQueue := none }
    allocated := Function.update s.allocated t true
    created := s.created + 1
    nextThreadId := wrap64 (s.nextThreadId + 1) }

/-- `kernel_thread_create` with the results of its two `kmalloc` calls: the thread object,
or `none`, and the stack, or 0. -/
def kernelThreadCreate (k : Kernel) (entry : ℕ) (object : Option ThreadPtr) (stack : ℕ) :
    Except Stop (Kernel × Option ThreadPtr) :=
  if entry = 0 then .ok (k, none)
  else match object with
    | none => .ok (k, none)
    | some t =>
        if stack = 0 then .ok (k, none)
        else withLock k .scheduler fun s =>
          .ok (enqueueThread (initThread s t entry stack) t, some t)

/-- The checks of `release_thread`, then `kfree` of the stack and of the object. Freeing an
object that is not allocated is the outcome `Stop.fault`. -/
def releaseThread (s : Scheduler) (t : ThreadPtr) : Except Stop Scheduler :=
  if some t = s.currentThread then .error (.panic .invalidReleaseTarget)
  else if !threadIsDead s (some t) then .error (.panic .reapingBeforeDead)
  else if (s.thread t).waitQueue ≠ none ∨ (s.thread t).waitNext ≠ none then
    .error (.panic .reapingOnWaitQueue)
  else if (s.thread t).wakeTick ≠ 0 then .error (.panic .reapingWithDeadline)
  else if (s.thread t).stackBase = 0 ∨ (s.thread t).stackSize = 0 then
    .error (.panic .reapingWithoutStack)
  else if !s.allocated t then .error .fault
  else .ok { s with allocated := Function.update s.allocated t false }

/-- `thread_is_zombie(thread) && thread != current_thread`. -/
def reapable (s : Scheduler) (t : ThreadPtr) : Bool :=
  threadIsZombie s (some t) && decide (some t ≠ s.currentThread)

/-- Unlink `t`, which follows `prev`, and push it on the private list. -/
def detachThread (s : Scheduler) (prev : Option ThreadPtr) (t : ThreadPtr)
    (next reapList : Option ThreadPtr) : Scheduler :=
  let s := match prev with
    | some p => s.setNext p next
    | none => { s with runQueueHead := next }
  let s := { s with runQueueTail := if s.runQueueTail = some t then prev else s.runQueueTail }
  s.setNext t reapList

/-- The locked loop of `sched_reap_dead_threads`. It moves every zombie other than the
current thread to a private list, through the same link field. -/
def reapWalk : ℕ → Scheduler → (prev thread reapList : Option ThreadPtr) →
    Except Stop (Scheduler × Option ThreadPtr)
  | _, s, _, none, reapList => .ok (s, reapList)
  | 0, _, _, some _, _ => .error .hang
  | n + 1, s, prev, some t, reapList =>
      let next := (s.thread t).next
      if reapable s t then do
        let s ← threadSetDead s (some t)
        reapWalk n (detachThread s prev t next reapList) prev next (some t)
      else reapWalk n s (some t) next reapList

/-- The unlocked loop that releases the private list. -/
def releaseWalk : ℕ → Scheduler → Option ThreadPtr → Except Stop Scheduler
  | _, s, none => .ok s
  | 0, _, some _ => .error .hang
  | n + 1, s, some t => do
      let next := (s.thread t).next
      let s := s.setNext t none
      let s ← releaseThread s t
      releaseWalk n s next

/-- The walk starts from the head that was read before the lock is taken. -/
def schedReapDeadThreads (k : Kernel) : Except Stop Kernel := do
  let thread := k.sched.runQueueHead
  let (k, reapList) ← withLock k .scheduler fun s => reapWalk s.created s none thread none
  let s ← releaseWalk k.sched.created k.sched reapList
  pure { k with sched := s }

/-! ### Switching -/

/-- A previous thread that is still running goes back to ready. -/
def markPrev (s : Scheduler) (prev : Option ThreadPtr) : Except Stop Scheduler :=
  if threadIsRunning s prev then threadSetReady s prev else .ok s

/-- The part of `sched_yield` between the choice of `next` and the stack switch. -/
def schedSwitch (s : Scheduler) (prev next : Option ThreadPtr) : Except Stop Scheduler := do
  let s := { s with scheduleLocked := true }
  let s ← markPrev s prev
  let s ← threadSetRunning s next
  pure { s with currentThread := next, scheduleLocked := false }

/-- `sched_yield` up to the stack switch, as one step. Who runs afterwards is the new
`currentThread`. -/
def schedYield (k : Kernel) : Except Stop Kernel := do
  schedAssertCanSwitch k
  let k ← schedReapDeadThreads k
  let prev := k.sched.currentThread
  let next ← nextRunnableThread k.sched
  if next = none ∨ next = prev then pure k
  else do
    let s ← schedSwitch k.sched prev next
    pure { k with sched := s }

def schedIrqEnter (s : Scheduler) : Scheduler := { s with irqDepth := s.irqDepth + 1 }

/-- `sched_irq_exit` up to its decision; `true` means that it goes on to `sched_yield`. -/
def schedIrqLeave (s : Scheduler) : Except Stop (Scheduler × Bool) :=
  if s.irqDepth = 0 then .error (.panic .irqExitWithoutEntry)
  else
    let s := { s with irqDepth := s.irqDepth - 1 }
    if s.irqDepth ≠ 0 then .ok (s, false)
    else if !s.needResched || s.currentThread.isNone || s.scheduleLocked then .ok (s, false)
    else .ok ({ s with needResched := false }, true)

def schedIrqExit (k : Kernel) : Except Stop Kernel := do
  let (s, resched) ← schedIrqLeave k.sched
  if resched then schedYield { k with sched := s } else pure { k with sched := s }

end Tianole.Sched
