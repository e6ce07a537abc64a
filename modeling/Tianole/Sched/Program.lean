import Mathlib.Data.Int.Notation
import Tianole.Sched.Wait

/-! What a kernel thread does between two scheduling points. Each blocking call of
`kernel/sched/` is cut where interrupts are enabled; a critical section is one step. -/
namespace Tianole.Sched
open Word

def einval : ℤ := 22
def etimedout : ℤ := 110

/-- Where a thread stands. `entry` is its own code; every other point lies inside a call. -/
inductive Pc where
  | entry
  /-- `sched_sleep`, deadline computed. -/
  | sleepMark (wakeTick : ℕ)
  /-- `sched_sleep`, marked and about to yield, and after `sched_yield`. -/
  | sleepYield
  | sleepReturn
  /-- `wait_queue_sleep`, at the top of its loop and after `sched_yield`. -/
  | queueSleepYield (q : QueuePtr)
  | queueSleepCheck (q : QueuePtr)
  /-- `wait_queue_wait`: condition, `sched_yield`, removal. -/
  | waitCheck (q : QueuePtr)
  | waitYield (q : QueuePtr)
  | waitRemove (q : QueuePtr)
  /-- `wait_queue_wait_timeout`: deadline, clock, condition, `sched_yield`, removal. -/
  | timeoutDeadline (q : QueuePtr) (ticks : ℕ)
  | timeoutNow (q : QueuePtr) (deadline : ℕ)
  | timeoutCheck (q : QueuePtr) (deadline now : ℕ)
  | timeoutYield (q : QueuePtr) (deadline : ℕ)
  | timeoutRemove (q : QueuePtr) (deadline : ℕ)
  /-- `sched_thread_exit`, in its final loop. -/
  | exitYield
  deriving DecidableEq, Repr

/-- What the code of a thread may ask for. A returning entry function asks for `exit`. -/
inductive Call where
  | yield
  | sleep (ticks : ℕ)
  | queueSleep (queue : Option QueuePtr)
  | wait (queue : Option QueuePtr) (hasCondition : Bool)
  | waitTimeout (queue : Option QueuePtr) (hasCondition : Bool) (ticks : ℕ)
  | wake (kind : WakeKind) (queue : Option QueuePtr)
  | create (entry : ℕ) (object : Option ThreadPtr) (stack : ℕ)
  | exit
  deriving DecidableEq, Repr

/-- How one step of a thread ends: at another point of the same call, with a return value,
with a new thread, or in a call of `sched_yield` that comes back to the given point. -/
inductive Control where
  | goto (pc : Pc)
  | ret (value : ℤ)
  | spawned (thread : Option ThreadPtr)
  | yieldTo (pc : Pc)
  deriving DecidableEq, Repr

/-- The point at which the thread goes on. -/
def Control.pc : Control → Pc
  | .goto pc => pc
  | .ret _ => .entry
  | .spawned _ => .entry
  | .yieldTo pc => pc

/-- `current_thread->wake_tick = 0`. -/
def clearWakeTick (s : Scheduler) : Except Stop Scheduler :=
  match s.currentThread with
  | none => .error .fault
  | some t => .ok (s.modifyThread t fun x => { x with wakeTick := 0 })

/-- `wait_queue_enqueue_locked(queue, current_thread)`. -/
def enqueueCurrent (s : Scheduler) (q : QueuePtr) : Except Stop Scheduler :=
  match s.currentThread with
  | none => .error .fault
  | some t => waitQueueEnqueueLocked s q t

/-- The section shared by `wait_queue_sleep` and `wait_queue_wait`. -/
def blockWaiting (s : Scheduler) (q : QueuePtr) : Except Stop Scheduler := do
  let s ← enqueueCurrent s q
  threadSetWaiting s s.currentThread

/-- `sched_thread_exit` before its loop. -/
def schedThreadExit (s : Scheduler) : Except Stop Scheduler :=
  if s.currentThread = none then .error (.panic .exitWithoutCurrent)
  else if threadIsZombie s s.currentThread || threadIsDead s s.currentThread then
    .error (.panic .exitEnteredTwice)
  else threadSetZombie s s.currentThread

/-- The first step of a call. `cond` is what the wait condition evaluates to. -/
def beginCall (k : Kernel) (cond : Bool) : Call → Except Stop (Kernel × Control)
  | .yield => .ok (k, .yieldTo .entry)
  | .sleep ticks =>
      if k.sched.currentThread = none ∨ ticks = 0 then .ok (k, .ret 0)
      else do
        schedAssertCanSwitch k
        pure (k, .goto (.sleepMark (wrap64 (k.sched.tickCount + ticks))))
  | .queueSleep queue =>
      match queue with
      | none => .ok (k, .ret 0)
      | some q =>
          if k.sched.currentThread = none then .ok (k, .ret 0)
          else do
            schedAssertCanSwitch k
            withLock k (.queue q) fun s =>
              (blockWaiting s q).map fun s => (s, .goto (.queueSleepYield q))
  | .wait queue hasCondition =>
      match queue with
      | none => .ok (k, .ret (-einval))
      | some q =>
          if hasCondition = false ∨ k.sched.currentThread = none then .ok (k, .ret (-einval))
          else do
            schedAssertCanSwitch k
            pure (k, .goto (.waitCheck q))
  | .waitTimeout queue hasCondition ticks =>
      match queue with
      | none => .ok (k, .ret (-einval))
      | some q =>
          if hasCondition = false ∨ k.sched.currentThread = none then .ok (k, .ret (-einval))
          else do
            schedAssertCanSwitch k
            if cond then pure (k, .ret 0)
            else if ticks = 0 then pure (k, .ret (-etimedout))
            else pure (k, .goto (.timeoutDeadline q ticks))
  | .wake kind queue => do
      let k ← waitQueueWake kind k queue
      pure (k, .ret 0)
  | .create entry object stack => do
      let (k, t) ← kernelThreadCreate k entry object stack
      pure (k, .spawned t)
  | .exit => do
      let s ← schedThreadExit k.sched
      pure ({ k with sched := s }, .goto .exitYield)

/-- The critical section in the loop of `wait_queue_wait_timeout`. -/
def timeoutSection (s : Scheduler) (q : QueuePtr) (deadline now : ℕ) (cond : Bool) :
    Except Stop (Scheduler × Control) :=
  if cond then (clearWakeTick s).map fun s => (s, .ret 0)
  else if deadline ≤ now then (clearWakeTick s).map fun s => (s, .ret (-etimedout))
  else do
    let s ← threadSetSleeping s s.currentThread deadline
    let s ← enqueueCurrent s q
    pure (s, .goto (.timeoutYield q deadline))

/-- The next step of a thread that stands at `pc`; `call` is what it asks for at `entry`. -/
def threadStep (k : Kernel) (pc : Pc) (call : Call) (cond : Bool) :
    Except Stop (Kernel × Control) :=
  match pc with
  | .entry => beginCall k cond call
  | .sleepMark wakeTick => do
      let s ← threadSetSleeping k.sched k.sched.currentThread wakeTick
      pure ({ k with sched := s }, .goto .sleepYield)
  | .sleepYield => .ok (k, .yieldTo .sleepReturn)
  | .sleepReturn => .ok (k, .ret 0)
  | .queueSleepYield q => .ok (k, .yieldTo (.queueSleepCheck q))
  | .queueSleepCheck q => withLock k (.queue q) fun s =>
      if threadIsWaiting s s.currentThread then .ok (s, .goto (.queueSleepYield q))
      else .ok (s, .ret 0)
  | .waitCheck q => withLock k (.queue q) fun s =>
      if cond then .ok (s, .ret 0)
      else (blockWaiting s q).map fun s => (s, .goto (.waitYield q))
  | .waitYield q => .ok (k, .yieldTo (.waitRemove q))
  | .waitRemove q => withLock k (.queue q) fun s =>
      (waitQueueRemoveLocked s q s.currentThread).map fun r => (r.1, .goto (.waitCheck q))
  | .timeoutDeadline q ticks =>
      .ok (k, .goto (.timeoutNow q (wrap64 (k.sched.tickCount + ticks))))
  | .timeoutNow q deadline => .ok (k, .goto (.timeoutCheck q deadline k.sched.tickCount))
  | .timeoutCheck q deadline now => withLock k (.queue q) fun s =>
      timeoutSection s q deadline now cond
  | .timeoutYield q deadline => .ok (k, .yieldTo (.timeoutRemove q deadline))
  | .timeoutRemove q deadline => withLock k (.queue q) fun s =>
      (waitQueueRemoveLocked s q s.currentThread).map fun r =>
        (r.1, .goto (.timeoutNow q deadline))
  | .exitYield => .ok (k, .yieldTo .exitYield)

end Tianole.Sched
