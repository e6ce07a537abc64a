import Tianole.Sched.Core

/-! Wait queues, after `kernel/sched/wait.c`. The functions on `Scheduler` run with the
queue lock held; those on `Kernel` take it. -/
namespace Tianole.Sched

def waitQueueEnqueueLocked (s : Scheduler) (q : QueuePtr) (t : ThreadPtr) :
    Except Stop Scheduler :=
  if (s.thread t).waitQueue ≠ none then .error (.panic .alreadyQueued)
  else
    let s := s.modifyThread t fun x => { x with waitNext := none, waitQueue := some q }
    let s := match (s.queue q).tail with
      | some tail => s.setWaitNext tail (some t)
      | none => s.modifyQueue q fun w => { w with head := some t }
    .ok (s.modifyQueue q fun w => { w with tail := some t })

def waitQueueRemoveHeadLocked (s : Scheduler) (q : QueuePtr) : Scheduler × Option ThreadPtr :=
  match (s.queue q).head with
  | none => (s, none)
  | some t =>
      let next := (s.thread t).waitNext
      let s := s.modifyQueue q fun w =>
        { head := next, tail := if next = none then none else w.tail }
      (s.modifyThread t fun x => { x with waitNext := none, waitQueue := none }, some t)

/-- Unlink `t`, which follows `prev` on the queue. -/
def unlinkWaiter (s : Scheduler) (q : QueuePtr) (prev : Option ThreadPtr) (t : ThreadPtr) :
    Scheduler :=
  let next := (s.thread t).waitNext
  let s := match prev with
    | some p => s.setWaitNext p next
    | none => s.modifyQueue q fun w => { w with head := next }
  let s := s.modifyQueue q fun w => { w with tail := if w.tail = some t then prev else w.tail }
  s.modifyThread t fun x => { x with waitNext := none, waitQueue := none }

/-- The search loop of `wait_queue_remove_locked`. -/
def removeWalk (q : QueuePtr) (target : ThreadPtr) :
    ℕ → Scheduler → (prev thread : Option ThreadPtr) → Except Stop Scheduler
  | _, _, _, none => .error (.panic .membershipInconsistent)
  | 0, _, _, some _ => .error .hang
  | n + 1, s, prev, some t =>
      if t = target then .ok (unlinkWaiter s q prev t)
      else removeWalk q target n s (some t) (s.thread t).waitNext

/-- Returns whether `target` was on the queue. -/
def waitQueueRemoveLocked (s : Scheduler) (q : QueuePtr) (target : Option ThreadPtr) :
    Except Stop (Scheduler × Bool) :=
  match target with
  | none => .ok (s, false)
  | some t =>
      if (s.thread t).waitQueue ≠ some q then .ok (s, false)
      else (removeWalk q t s.created s none (s.queue q).head).map fun s => (s, true)

def waitQueueMarkReadyLocked (s : Scheduler) (thread : Option ThreadPtr) :
    Except Stop Scheduler :=
  match thread with
  | none => .ok s
  | some t =>
      if !threadIsWaiting s (some t) && !threadIsSleeping s (some t) then
        .error (.panic .wakeupNonWaiting)
      else threadSetReady s (some t)

def waitQueueWakeOneLocked (s : Scheduler) (queue : Option QueuePtr) : Except Stop Scheduler :=
  match queue with
  | none => .ok s
  | some q =>
      let (s, thread) := waitQueueRemoveHeadLocked s q
      waitQueueMarkReadyLocked s thread

def wakeAllLoop (q : QueuePtr) : ℕ → Scheduler → Except Stop Scheduler
  | 0, s => if (s.queue q).head = none then .ok s else .error .hang
  | n + 1, s =>
      if (s.queue q).head = none then .ok s
      else do
        let (s, thread) := waitQueueRemoveHeadLocked s q
        let s ← waitQueueMarkReadyLocked s thread
        wakeAllLoop q n s

def waitQueueWakeAllLocked (s : Scheduler) (queue : Option QueuePtr) : Except Stop Scheduler :=
  match queue with
  | none => .ok s
  | some q => wakeAllLoop q s.created s

/-- A wakeup takes either the oldest waiter or all of them. -/
inductive WakeKind where
  | one | all
  deriving DecidableEq, Repr

def wakeLocked (kind : WakeKind) (s : Scheduler) (queue : Option QueuePtr) :
    Except Stop Scheduler :=
  match kind with
  | .one => waitQueueWakeOneLocked s queue
  | .all => waitQueueWakeAllLocked s queue

/-- `wait_queue_wake_one` and `wait_queue_wake_all`: the locked wakeup inside its lock. -/
def waitQueueWake (kind : WakeKind) (k : Kernel) (queue : Option QueuePtr) :
    Except Stop Kernel :=
  match queue with
  | none => .ok k
  | some q => do
      let (k, _) ← withLock k (.queue q) fun s =>
        (wakeLocked kind s (some q)).map fun s => (s, ())
      pure k

def waitQueueWakeOne (k : Kernel) (queue : Option QueuePtr) : Except Stop Kernel :=
  waitQueueWake .one k queue

def waitQueueWakeAll (k : Kernel) (queue : Option QueuePtr) : Except Stop Kernel :=
  waitQueueWake .all k queue

end Tianole.Sched
