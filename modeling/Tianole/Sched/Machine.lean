import Tianole.Sched.System

/-! The scheduler on one CPU with interrupts. Here `sched_yield` is cut into its steps, the
stacks of switched-out threads are kept, and an interrupt may arrive between any two steps
at which the interrupt flag is set. Whatever runs under a spinlock is one step. -/
namespace Tianole.Sched
open Runs

/-- Where a call of `sched_yield` stands, with its local variables. -/
inductive YieldPoint where
  | reap
  | select
  | lock (prev next : Option ThreadPtr)
  | markPrev (prev next : Option ThreadPtr)
  | setRunning (prev next : Option ThreadPtr)
  | setCurrent (prev next : Option ThreadPtr)
  | unlock (prev next : Option ThreadPtr)
  | switch (prev next : Option ThreadPtr)
  | ret
  deriving DecidableEq, Repr

/-- A call of `sched_yield` on a stack. One that comes from `sched_irq_exit` lies above an
interrupt frame with the interrupt flag to restore. -/
structure Activation where
  point : YieldPoint
  irq : Option Bool
  deriving DecidableEq, Repr

/-- What a saved stack pointer leads to: a stack, named by the thread it belongs to, and the
calls of `sched_yield` on it, innermost first. -/
structure Context where
  owner : Option ThreadPtr
  frames : List Activation
  deriving DecidableEq, Repr

/-- The kernel, where each thread stands, the stack that the CPU executes on, and every
saved stack pointer; `none` stands for the boot context. -/
structure Machine where
  kernel : Kernel
  pc : ThreadPtr → Pc
  owner : Option ThreadPtr
  frames : List Activation
  saved : Option ThreadPtr → Context

inductive IrqEvent where
  | tick
  | wake (kind : WakeKind) (queue : Option QueuePtr)
  deriving DecidableEq, Repr

inductive MachineAction where
  | run (call : Call) (cond : Bool)
  | interrupt (events : List IrqEvent)
  deriving DecidableEq, Repr

def Kernel.setFlag (k : Kernel) (b : Bool) : Kernel :=
  { k with locks := { k.locks with interruptFlag := b } }

def handleEvent (k : Kernel) : IrqEvent → Except Stop Kernel
  | .tick => (timerTick k.sched).map fun s => { k with sched := s }
  | .wake kind queue => waitQueueWake kind k queue

def handleEvents : Kernel → List IrqEvent → Except Stop Kernel
  | k, [] => .ok k
  | k, e :: es => (handleEvent k e).bind fun k => handleEvents k es

namespace Machine

def flag (σ : Machine) : Bool := σ.kernel.locks.interruptFlag

/-- `trap_dispatch` for an external interrupt, up to the decision of `sched_irq_exit`. -/
def irqDecision (σ : Machine) (events : List IrqEvent) : Except Stop (Kernel × Bool) :=
  (handleEvents (Kernel.setFlag ⟨schedIrqEnter σ.kernel.sched, σ.kernel.locks⟩ false) events).bind
    fun k => (schedIrqLeave k.sched).map fun r => (⟨r.1, k.locks⟩, r.2)

/-- A masked interrupt has no effect. Without a reschedule `iretq` follows at once. -/
def interrupt (σ : Machine) (events : List IrqEvent) : Except Stop Machine :=
  if σ.flag = false then .ok σ
  else (σ.irqDecision events).map fun r =>
    if r.2 then { σ with kernel := r.1, frames := ⟨.reap, some σ.flag⟩ :: σ.frames }
    else { σ with kernel := r.1.setFlag σ.flag }

/-- The code of the thread that owns the stack. -/
def point (σ : Machine) : Pc :=
  match σ.owner with
  | some t => σ.pc t
  | none => .entry

def halted (σ : Machine) : Bool :=
  σ.owner.isSome && σ.owner = σ.kernel.sched.idleThread

def finish (σ : Machine) (k : Kernel) (control : Control) : Machine :=
  { σ with
    kernel := k
    pc := movePc σ.pc σ.owner control
    frames := match control with
      | .yieldTo _ => [⟨.reap, none⟩]
      | _ => []
    saved := match control with
      | .spawned (some t) => Function.update σ.saved (some t) ⟨some t, []⟩
      | _ => σ.saved }

def runThread (σ : Machine) (call : Call) (cond : Bool) : Except Stop Machine :=
  if σ.halted then .ok σ
  else (threadStep σ.kernel σ.point call cond).map fun r => σ.finish r.1 r.2

/-- `arch_context_switch`: the stack pointer goes into `prev`, whatever stack it is on. -/
def contextSwitch (σ : Machine) (irq : Option Bool) (rest : List Activation)
    (prev : Option ThreadPtr) (next : ThreadPtr) : Machine :=
  { σ with
    owner := (σ.saved (some next)).owner
    frames := (σ.saved (some next)).frames
    saved := Function.update σ.saved prev ⟨σ.owner, ⟨.ret, irq⟩ :: rest⟩ }

/-- The innermost `sched_yield`, called as `act` says, reaches the point `p`. -/
def goto (σ : Machine) (act : Activation) (rest : List Activation) (k : Kernel)
    (p : YieldPoint) : Machine :=
  { σ with kernel := k, frames := { act with point := p } :: rest }

/-- One step of the innermost `sched_yield`. -/
def runYield (σ : Machine) (act : Activation) (rest : List Activation) : Except Stop Machine :=
  let goto := σ.goto act rest
  let k := σ.kernel
  match act.point with
  | .reap => (schedAssertCanSwitch k).bind fun _ =>
      (schedReapDeadThreads k).map fun k => goto k .select
  | .select => (nextRunnableThread k.sched).map fun next =>
      if next = none ∨ next = k.sched.currentThread then goto k .ret
      else goto k (.lock k.sched.currentThread next)
  | .lock prev next =>
      .ok (goto { k with sched := { k.sched with scheduleLocked := true } } (.markPrev prev next))
  | .markPrev prev next => (Tianole.Sched.markPrev k.sched prev).map fun s =>
      goto { k with sched := s } (.setRunning prev next)
  | .setRunning prev next => (threadSetRunning k.sched next).map fun s =>
      goto { k with sched := s } (.setCurrent prev next)
  | .setCurrent prev next =>
      .ok (goto { k with sched := { k.sched with currentThread := next } } (.unlock prev next))
  | .unlock prev next =>
      .ok (goto { k with sched := { k.sched with scheduleLocked := false } } (.switch prev next))
  | .switch prev next =>
      match next with
      | none => .error .fault
      | some t => .ok (σ.contextSwitch act.irq rest prev t)
  | .ret =>
      match act.irq with
      | some b => .ok { σ with kernel := k.setFlag b, frames := rest }
      | none => .ok { σ with frames := rest }

def step (σ : Machine) : MachineAction → Except Stop Machine
  | .interrupt events => σ.interrupt events
  | .run call cond =>
      match σ.frames with
      | [] => σ.runThread call cond
      | act :: rest => σ.runYield act rest

/-- Boot with the given thread objects, one of them for the idle thread. -/
def boot (objects : List ThreadPtr) (idle : ThreadPtr) : Machine where
  kernel := (System.boot objects idle).kernel
  pc := (System.boot objects idle).pc
  owner := none
  frames := []
  saved p := ⟨p, []⟩

end Machine

/-- The state in which `sched_start` leaves the machine: interrupts are enabled, the boot
context runs on its own stack, and every thread has the stack that its creation prepared. -/
structure MachineInitial (σ : Machine) (run : List ThreadPtr) : Prop where
  system : Initial ⟨σ.kernel, σ.pc⟩ run
  flag : σ.flag = true
  owner : σ.owner = none
  frames : σ.frames = []
  saved : ∀ p, σ.saved p = ⟨p, []⟩

theorem machineBoot_initial {objects : List ThreadPtr} {idle : ThreadPtr} (hn : objects.Nodup)
    (hi : idle ∈ objects) : MachineInitial (.boot objects idle) objects :=
  ⟨boot_initial hn hi, rfl, rfl, rfl, fun _ => rfl⟩

def MachineAdmissible (σ : Machine) : MachineAction → Prop
  | .run call _ => Fresh σ.kernel.sched call
  | .interrupt _ => True

/-- The states of all runs whose steps are admissible and meet `ok`. -/
def MachineReachable (ok : Machine → MachineAction → Prop) : Machine → Prop :=
  Reach Machine.step (fun σ => ∃ run, MachineInitial σ run)
    fun σ act => MachineAdmissible σ act ∧ ok σ act

theorem machineBoot_reachable {ok : Machine → MachineAction → Prop} {objects : List ThreadPtr}
    {idle : ThreadPtr} (hn : objects.Nodup) (hi : idle ∈ objects) :
    MachineReachable ok (.boot objects idle) := .start ⟨objects, machineBoot_initial hn hi⟩

end Tianole.Sched
