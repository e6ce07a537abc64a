import Mathlib.Data.Int.Order.Basic
import Mathlib.Logic.Function.Basic
import Tianole.Lib.Runs
import Tianole.Sched.Core

/-! Interrupt-safe spinlocks on one CPU, instruction by instruction. Threads and interrupt handlers
run arbitrary code around their critical sections. An interrupt may arrive between any two steps at
which the interrupt flag is set, also inside `spin_lock_irqsave`, and `sched_yield` may go on to any
saved stack. -/
namespace Tianole.Locking
open Runs

inductive Panic where
  | invalidSpinlockAcquire | spinlockContention | invalidSpinlockRelease | spinlockDepthUnderflow
  | reentryWhileSwitchLocked | calledWhileSpinlockHeld | calledFromIrqContext | irqExitWithoutEntry
  deriving DecidableEq, Repr

def Panic.text : Panic → String
  | .invalidSpinlockAcquire => "invalid spinlock acquire"
  | .spinlockContention => "spinlock recursion or contention"
  | .invalidSpinlockRelease => "invalid spinlock release"
  | .spinlockDepthUnderflow => "spinlock depth underflow"
  | .reentryWhileSwitchLocked => "scheduler reentry while switch locked"
  | .calledWhileSpinlockHeld => "scheduler called while spinlock held"
  | .calledFromIrqContext => "scheduler called from irq context"
  | .irqExitWithoutEntry => "scheduler irq exit without irq entry"

inductive Stop where
  | panic (p : Panic)
  | fault
  deriving DecidableEq, Repr

/-- A critical section: its lock, the flags that `spin_lock_irqsave` stored for it, and, for the
statements only, the interrupt flag at the call of `spin_lock_irqsave`. -/
structure CriticalSection (L : Type) where
  lock : L
  flags : Bool
  before : Bool
  deriving DecidableEq, Repr

/-- The next statement of a context inside `spin_lock_irqsave` or `spin_unlock_irqrestore`. -/
inductive Point (L : Type) where
  /-- The code around the two functions. -/
  | code
  /-- `pushfq; popq` -/
  | save (lock : L) (before : Bool)
  /-- `cli` -/
  | mask (s : CriticalSection L)
  /-- `if (lock->locked != 0)` -/
  | testFree (s : CriticalSection L)
  /-- `lock->locked = 1` -/
  | take (s : CriticalSection L)
  /-- `spinlock_depth++` -/
  | count (s : CriticalSection L)
  /-- `*flags = saved_flags` -/
  | store (s : CriticalSection L)
  /-- `if (lock->locked == 0)` -/
  | testLocked (lock : L) (flags : Bool)
  /-- `if (spinlock_depth <= 0)` -/
  | testDepth (lock : L) (flags : Bool)
  /-- `spinlock_depth--` -/
  | uncount (lock : L) (flags : Bool)
  /-- `lock->locked = 0` -/
  | clear (lock : L) (flags : Bool)
  /-- `arch_irq_restore(flags)` -/
  | restore (lock : L) (flags : Bool)
  deriving DecidableEq, Repr

/-- Where a call of `sched_yield` stands after `sched_assert_can_switch`. -/
inductive YieldPoint (T : Type) where
  /-- `sched_reap_dead_threads` is about to take the scheduler lock. -/
  | reap
  /-- It has called `spin_lock_irqsave`. -/
  | reaping
  /-- It has called `spin_unlock_irqrestore`; the choice of `next` comes after that. -/
  | select
  /-- `schedule_locked` is set. -/
  | locked (prev next : T)
  | switch (prev next : T)
  deriving DecidableEq, Repr

/-- A thread or an interrupt handler. A handler lies above the interrupt frame `frame`, which keeps
the interrupt flag of the code that it interrupted. -/
structure Context (L T : Type) where
  point : Point L
  /-- The critical sections whose release has not returned, innermost first. -/
  held : List (CriticalSection L)
  yield : Option (YieldPoint T)
  frame : Option Bool
  deriving DecidableEq, Repr

/-- The CPU, the lock words, the globals that the lock and switch code reads, the contexts on the
stack in use, innermost first, and the stacks that saved stack pointers lead to. -/
structure Cpu (L T : Type) where
  interruptFlag : Bool
  locked : L → Bool
  spinlockDepth : ℤ
  scheduleLocked : Bool
  irqDepth : ℤ
  stack : List (Context L T)
  saved : T → List (Context L T)

inductive Action (L T : Type) where
  /-- `spin_lock_irqsave(lock, flags)`; `flags` says that the second pointer is not NULL. -/
  | lock (lock : Option L) (flags : Bool)
  | unlock (lock : Option L) (flags : Bool)
  /-- Other code that sets or clears the interrupt flag. -/
  | setFlag (on : Bool)
  | irqEnter
  /-- `sched_irq_exit` up to its call of `sched_yield`. -/
  | irqExit
  /-- `prepare_initial_stack` for a new thread. -/
  | spawn (thread : T)
  | yield
  /-- The next step inside a function of this model. `next_runnable_thread` finds `target`: the
  slots that the switch saves to and loads from. -/
  | proceed (target : Option (T × T))
  | interrupt
  /-- The end of a handler. -/
  | iret
  deriving DecidableEq, Repr

/-- An `int` after an addition. -/
def int32 (n : ℤ) : ℤ := n.bmod (2 ^ 32)

/-- The context of a thread that has not run. -/
def Context.fresh {L T : Type} : Context L T := ⟨.code, [], none, none⟩

namespace Cpu
variable {L T : Type} [DecidableEq L] [DecidableEq T]

/-- The innermost context becomes `c`. -/
def goto (σ : Cpu L T) (rest : List (Context L T)) (c : Context L T) : Cpu L T :=
  { σ with stack := c :: rest }

def spinlockHeldCount (σ : Cpu L T) : ℤ := σ.spinlockDepth

def schedAssertCanSwitch (σ : Cpu L T) : Except Stop Unit :=
  if σ.scheduleLocked then .error (.panic .reentryWhileSwitchLocked)
  else if σ.spinlockHeldCount ≠ 0 then .error (.panic .calledWhileSpinlockHeld)
  else if σ.irqDepth ≠ 0 then .error (.panic .calledFromIrqContext)
  else .ok ()

/-- `spin_lock_irqsave` up to the test of its arguments. -/
def spinLockIrqsave (σ : Cpu L T) (c : Context L T) (rest : List (Context L T)) :
    Option L → Bool → Except Stop (Cpu L T)
  | some l, true => .ok (σ.goto rest { c with point := .save l σ.interruptFlag })
  | _, _ => .error (.panic .invalidSpinlockAcquire)

def spinUnlockIrqrestore (σ : Cpu L T) (c : Context L T) (rest : List (Context L T)) :
    Option L → Bool → Except Stop (Cpu L T)
  | some l, flags => .ok (σ.goto rest { c with point := .testLocked l flags })
  | none, _ => .error (.panic .invalidSpinlockRelease)

/-- One statement of `spin_lock_irqsave` or `spin_unlock_irqrestore`. -/
def lockStep (σ : Cpu L T) (c : Context L T) (rest : List (Context L T)) :
    Except Stop (Cpu L T) :=
  let goto (σ : Cpu L T) (p : Point L) := σ.goto rest { c with point := p }
  match c.point with
  | .code => .ok σ
  | .save l before => .ok (goto σ (.mask ⟨l, σ.interruptFlag, before⟩))
  | .mask s => .ok (goto { σ with interruptFlag := false } (.testFree s))
  | .testFree s =>
      if σ.locked s.lock then .error (.panic .spinlockContention) else .ok (goto σ (.take s))
  | .take s => .ok (goto { σ with locked := Function.update σ.locked s.lock true } (.count s))
  | .count s => .ok (goto { σ with spinlockDepth := int32 (σ.spinlockDepth + 1) } (.store s))
  | .store s => .ok (σ.goto rest { c with point := .code, held := s :: c.held })
  | .testLocked l flags =>
      if σ.locked l = false then .error (.panic .invalidSpinlockRelease)
      else .ok (goto σ (.testDepth l flags))
  | .testDepth l flags =>
      if σ.spinlockDepth ≤ 0 then .error (.panic .spinlockDepthUnderflow)
      else .ok (goto σ (.uncount l flags))
  | .uncount l flags =>
      .ok (goto { σ with spinlockDepth := int32 (σ.spinlockDepth - 1) } (.clear l flags))
  | .clear l flags =>
      .ok (goto { σ with locked := Function.update σ.locked l false } (.restore l flags))
  | .restore l flags =>
      -- `arch_irq_restore` only ever sets the flag.
      .ok (Cpu.goto { σ with interruptFlag := if flags then true else σ.interruptFlag } rest
        { c with point := .code, held := c.held.eraseP fun s => s.lock = l })

/-- One step of `sched_yield`, outside the two lock functions. -/
def yieldStep (schedulerLock : L) (σ : Cpu L T) (c : Context L T) (rest : List (Context L T))
    (target : Option (T × T)) : YieldPoint T → Except Stop (Cpu L T)
  | .reap => σ.spinLockIrqsave { c with yield := some .reaping } rest (some schedulerLock) true
  | .reaping =>
      match c.held with
      | s :: _ =>
          σ.spinUnlockIrqrestore { c with yield := some .select } rest (some schedulerLock) s.flags
      | [] => .error .fault
  | .select =>
      match target with
      | none => .ok (σ.goto rest { c with yield := none })
      | some (prev, next) => .ok (Cpu.goto { σ with scheduleLocked := true } rest
          { c with yield := some (.locked prev next) })
  | .locked prev next => .ok (Cpu.goto { σ with scheduleLocked := false } rest
      { c with yield := some (.switch prev next) })
  | .switch prev next =>
      -- `arch_context_switch`: whatever slot `prev` is, the stack pointer goes there.
      .ok { σ with
            stack := σ.saved next
            saved := Function.update σ.saved prev ({ c with yield := none } :: rest) }

def proceed (schedulerLock : L) (σ : Cpu L T) (c : Context L T) (rest : List (Context L T))
    (target : Option (T × T)) : Except Stop (Cpu L T) :=
  match c.point, c.yield with
  | .code, some y => σ.yieldStep schedulerLock c rest target y
  | _, _ => σ.lockStep c rest

/-- An external interrupt: the CPU keeps the flag in the interrupt frame and clears it. -/
def interrupt (σ : Cpu L T) : Cpu L T :=
  if σ.interruptFlag then
    { σ with interruptFlag := false
             stack := ⟨.code, [], none, some σ.interruptFlag⟩ :: σ.stack }
  else σ

def step (schedulerLock : L) (σ : Cpu L T) (act : Action L T) : Except Stop (Cpu L T) :=
  match σ.stack with
  | [] => .error .fault
  | c :: rest =>
      match act with
      | .lock lock flags => σ.spinLockIrqsave c rest lock flags
      | .unlock lock flags => σ.spinUnlockIrqrestore c rest lock flags
      | .setFlag on => .ok { σ with interruptFlag := on }
      | .irqEnter => .ok { σ with irqDepth := int32 (σ.irqDepth + 1) }
      | .irqExit =>
          if σ.irqDepth ≤ 0 then .error (.panic .irqExitWithoutEntry)
          else .ok { σ with irqDepth := int32 (σ.irqDepth - 1) }
      | .spawn t => .ok { σ with saved := Function.update σ.saved t [.fresh] }
      | .yield => σ.schedAssertCanSwitch.map fun _ => σ.goto rest { c with yield := some .reap }
      | .proceed target => σ.proceed schedulerLock c rest target
      | .interrupt => .ok σ.interrupt
      | .iret =>
          match c.frame with
          | some flag => .ok { σ with interruptFlag := flag, stack := rest }
          | none => .error .fault

end Cpu

section
variable {L T : Type}

/-- The context is in its own code. -/
def Context.InCode (c : Context L T) : Prop := c.point = .code ∧ c.yield = none

/-- Critical sections are well nested and closed before a handler returns, a lock that is held on
the same path is not acquired again, and a context that holds a lock does not set the interrupt
flag by other means. That it does not yield need not be asked for. -/
def Context.Allows (c : Context L T) : Action L T → Prop
  | .lock lock _ => c.InCode ∧ ∀ s ∈ c.held, lock ≠ some s.lock
  | .unlock lock flags =>
      c.InCode ∧ ∃ s outer, c.held = s :: outer ∧ lock = some s.lock ∧ flags = s.flags
  | .setFlag on => c.InCode ∧ (on = true → c.held = [])
  | .iret => c.InCode ∧ c.held = []
  | .irqEnter | .irqExit | .spawn _ | .yield => c.InCode
  | .proceed _ | .interrupt => True

/-- The context that executes keeps to the discipline. -/
def Cpu.Disciplined (σ : Cpu L T) (act : Action L T) : Prop :=
  ∀ c rest, σ.stack = c :: rest → c.Allows act

/-- `spinlock_depth` is an `int`: with the lock of this call, fewer than `2 ^ 31` are held. -/
def Cpu.FewLocks (σ : Cpu L T) : Action L T → Prop
  | .lock _ _ => ∀ c rest, σ.stack = c :: rest → c.held.length + 1 < 2 ^ 31
  | _ => True

/-- No lock is held, and every stack is that of a thread that has not run. -/
structure Cpu.Initial (σ : Cpu L T) : Prop where
  locked : ∀ l, σ.locked l = false
  spinlockDepth : σ.spinlockDepth = 0
  scheduleLocked : σ.scheduleLocked = false
  irqDepth : σ.irqDepth = 0
  stack : σ.stack = [.fresh]
  saved : ∀ t, σ.saved t = [.fresh]

variable [DecidableEq L] [DecidableEq T]

/-- The states of all disciplined runs whose steps meet `ok`. -/
def Reachable (schedulerLock : L) (ok : Cpu L T → Action L T → Prop) : Cpu L T → Prop :=
  Reach (Cpu.step schedulerLock) Cpu.Initial fun σ act => σ.Disciplined act ∧ ok σ act

end

/-! ### A call as a whole -/

namespace Cpu
section
variable {L T : Type} [DecidableEq L] [DecidableEq T] {σ : Cpu L T} {c : Context L T}
  {rest : List (Context L T)} {l schedulerLock : L}

/-- The CPU after an uncontended `spin_lock_irqsave`. -/
def entered (σ : Cpu L T) (c : Context L T) (rest : List (Context L T)) (l : L) : Cpu L T :=
  { σ with
    interruptFlag := false
    locked := Function.update σ.locked l true
    spinlockDepth := int32 (σ.spinlockDepth + 1)
    stack := { c with held := ⟨l, σ.interruptFlag, σ.interruptFlag⟩ :: c.held } :: rest }

def lockCall (l : L) : List (Action L T) := .lock (some l) true :: .replicate 6 (.proceed none)

def unlockCall (l : L) (flags : Bool) : List (Action L T) :=
  .unlock (some l) flags :: .replicate 5 (.proceed none)

theorem exec_lockCall (hs : σ.stack = c :: rest) (hc : c.point = .code) :
    exec (step schedulerLock) σ (lockCall l) =
      if σ.locked l then .error (.panic .spinlockContention) else .ok (σ.entered c rest l) := by
  obtain ⟨flag, locked, depth, scheduleLocked, irqDepth, stack, saved⟩ := σ
  obtain ⟨point, held, yield, frame⟩ := c
  obtain rfl : stack = _ := hs
  obtain rfl : point = _ := hc
  cases h : locked l with
  | true => simp [exec, lockCall, step, spinLockIrqsave, proceed, lockStep, goto, Except.bind, h]
  | false =>
    simp [exec, lockCall, step, spinLockIrqsave, proceed, lockStep, goto, Except.bind, h, entered]

/-- The CPU after `spin_unlock_irqrestore`. -/
def left (σ : Cpu L T) (c : Context L T) (rest : List (Context L T)) (l : L) (flags : Bool) :
    Cpu L T :=
  { σ with
    interruptFlag := if flags then true else σ.interruptFlag
    locked := Function.update σ.locked l false
    spinlockDepth := int32 (σ.spinlockDepth - 1)
    stack := { c with held := c.held.eraseP fun s => s.lock = l } :: rest }

theorem exec_unlockCall {flags : Bool} (hs : σ.stack = c :: rest) (hc : c.point = .code) :
    exec (step schedulerLock) σ (unlockCall l flags) =
      if σ.locked l = false then .error (.panic .invalidSpinlockRelease)
      else if σ.spinlockDepth ≤ 0 then .error (.panic .spinlockDepthUnderflow)
      else .ok (σ.left c rest l flags) := by
  obtain ⟨flag, locked, depth, scheduleLocked, irqDepth, stack, saved⟩ := σ
  obtain ⟨point, held, yield, frame⟩ := c
  obtain rfl : stack = _ := hs
  obtain rfl : point = _ := hc
  cases h : locked l with
  | false =>
    simp [exec, unlockCall, step, spinUnlockIrqrestore, proceed, lockStep, goto, Except.bind, h]
  | true =>
    by_cases hd : depth ≤ 0
    · simp [exec, unlockCall, step, spinUnlockIrqrestore, proceed, lockStep, goto, Except.bind, h,
        hd]
    · simp [exec, unlockCall, step, spinUnlockIrqrestore, proceed, lockStep, goto, Except.bind, h,
        hd, left]

end

theorem int32_eq {n : ℤ} (hlow : -2 ^ 31 ≤ n) (hhigh : n < 2 ^ 31) : int32 n = n := by
  rw [int32, Int.bmod_def]
  omega

/-! The scheduler model takes each call in one step. -/

section
variable {T : Type} [DecidableEq T] {σ : Cpu Sched.LockId T} {c : Context Sched.LockId T}
  {rest : List (Context Sched.LockId T)} {l schedulerLock : Sched.LockId}

/-- What the scheduler model keeps of the CPU. -/
def locks (σ : Cpu Sched.LockId T) : Sched.Locks :=
  ⟨σ.interruptFlag, σ.locked, σ.spinlockDepth.toNat⟩

theorem lockCall_refines (hs : σ.stack = c :: rest) (hc : c.point = .code)
    (hlow : 0 ≤ σ.spinlockDepth) (hhigh : σ.spinlockDepth + 1 < 2 ^ 31) :
    ((exec (step schedulerLock) σ (lockCall l)).map locks).toOption =
      ((Sched.spinLockIrqsave σ.locks l).map Prod.fst).toOption := by
  rw [exec_lockCall hs hc, Sched.spinLockIrqsave, locks]
  split
  next => rfl
  next =>
    have hdepth : (int32 (σ.spinlockDepth + 1)).toNat = σ.spinlockDepth.toNat + 1 := by
      rw [int32_eq (by omega) hhigh]
      omega
    simp [Except.map, Except.toOption, locks, entered, hdepth]

theorem unlockCall_refines {flags : Bool} (hs : σ.stack = c :: rest) (hc : c.point = .code)
    (hlow : 0 ≤ σ.spinlockDepth) (hhigh : σ.spinlockDepth < 2 ^ 31) :
    ((exec (step schedulerLock) σ (unlockCall l flags)).map locks).toOption =
      (Sched.spinUnlockIrqrestore σ.locks l flags).toOption := by
  rw [exec_unlockCall hs hc, Sched.spinUnlockIrqrestore, locks]
  cases h : σ.locked l with
  | false => simp [Except.map, Except.toOption, h]
  | true =>
    by_cases hd : σ.spinlockDepth ≤ 0
    · have hzero : σ.spinlockDepth.toNat = 0 := by omega
      simp [Except.map, Except.toOption, h, hd, hzero]
    · have hpos : σ.spinlockDepth.toNat ≠ 0 := by omega
      have hdepth : (int32 (σ.spinlockDepth - 1)).toNat = σ.spinlockDepth.toNat - 1 := by
        rw [int32_eq (by omega) (by omega)]
        omega
      simp [Except.map, Except.toOption, h, hd, hpos, locks, left, hdepth]

end
end Cpu
end Tianole.Locking
