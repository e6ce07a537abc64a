import Tianole.Arch.ContextSwitch
import Tianole.Mm.HeapContents
import Tianole.Sched.History

/-! Kernel threads with the memory that they are made of. `kernel_thread_create` takes a thread
object and a stack from the heap, and the reaper gives them back. In between, the context of a
suspended thread lies on its stack, in the same memory in which the heap keeps its headers. -/
namespace Tianole.Sched
open Memory ByteStack Runs
open Arch (CallSite Processor Reg Apart)

/-- `sizeof(struct thread)`, and the offset of `stack_pointer` in it. -/
def threadSize : ℕ := 128
def stackPointerOffset : ℕ := 16

/-- The bytes that `entry.S` reserves for `kernel_stack`. -/
def bootStackSize : ℕ := 16384

/-- Addresses in the kernel image, which lies below the heap. -/
structure Image where
  threadTrampoline : Word
  kernelStack : Word
  bootStackPointer : Word
  /-- Where the two calls of `arch_context_switch` in `sched_yield` return to. -/
  returnToBoot : Word
  returnToThread : Word
  stack_low : kernelStack.toNat + bootStackSize ≤ Mm.heapBase
  slot_low : bootStackPointer.toNat + 8 ≤ Mm.heapBase
  apart : Apart bootStackPointer.toNat 8 kernelStack.toNat bootStackSize

namespace Image

/-- The variable that the stack pointer of a context is saved in. -/
def slot (image : Image) : Option ℕ → Word
  | none => image.bootStackPointer
  | some t => BitVec.ofNat 64 (t + stackPointerOffset)

def returnAddress (image : Image) : Option ThreadPtr → Word
  | none => image.returnToBoot
  | some _ => image.returnToThread

/-- The start and the size of the stack of a context. -/
def stackOf (image : Image) (s : Scheduler) : Option ℕ → ℕ × ℕ
  | none => (image.kernelStack.toNat, bootStackSize)
  | some t => ((s.thread t).stackBase, kernelStackSize)

/-- Where a new thread seems to have called `arch_context_switch`. -/
def freshSite (image : Image) (stackTop : Word) : CallSite :=
  ⟨fun _ => 0, stackTop - 8, image.threadTrampoline⟩

end Image

/-! ### Creation and release -/

/-- The allocations of `kernel_thread_create`: an object and a stack, or neither. -/
def allocThread (h : Mm.Heap) (entry : ℕ) (pages : Bool → ℕ → Mm.PageOutcome) :
    Except Mm.Stop (Mm.Heap × Option ThreadPtr × ℕ) :=
  if entry = 0 then .ok (h, none, 0)
  else do
    let (h, thread) ← Mm.kmalloc h (pages false) threadSize
    if thread = 0 then pure (h, none, 0)
    else
      let (h, stack) ← Mm.kmalloc h (pages true) kernelStackSize
      if stack = 0 then pure (Mm.kfree h thread, none, 0)
      else pure (h, some thread, stack)

def stackTop (stack : ℕ) : Word :=
  Arch.alignDownUintptr (BitVec.ofNat 64 stack + BitVec.ofNat 64 kernelStackSize)
    Arch.stackAlignment

/-- The first frame of a new thread, and its `stack_pointer`. -/
def prepareThread (image : Image) (mem : Mem) (thread stack : ℕ) : Mem :=
  let prepared := Arch.prepareInitialStack image.threadTrampoline mem (stackTop stack)
  storeWord prepared.1 (image.slot (some thread)) prepared.2

/-- The `kfree` calls of a reaping pass. -/
def freeReleased (h : Mm.Heap) (released : List Release) : Mm.Heap :=
  released.foldl (fun h r => Mm.kfree (Mm.kfree h r.stack) r.object) h

/-! ### The machine -/

/-- The threads, the heap, and the processor, whose memory is the one of the heap. For each context
that does not run, `site` is the call of `arch_context_switch` from which it is to return.

Each step runs to its end. For `kernel_thread_create` and for `sched_yield`, whose reaping pass
frees threads, this is an assumption: `kmalloc` and `kfree` take no lock, and both are called with
interrupts on. -/
structure ThreadMachine where
  threads : Traced
  heap : Mm.Heap
  reg : Reg → Word
  rsp : Word
  rip : Word
  site : Option ThreadPtr → CallSite

inductive ThreadMachineStop where
  | sched (stop : Stop)
  | mm (stop : Mm.Stop)
  deriving DecidableEq, Repr

inductive ThreadMachineAction where
  /-- A step of the scheduler that creates no thread. -/
  | sched (act : Action)
  /-- The running context calls `kernel_thread_create`. -/
  | create (entry : ℕ) (pages : Bool → ℕ → Mm.PageOutcome)
  /-- The running context executes code of its own, and ends with these registers and this
  memory. -/
  | run (reg : Reg → Word) (rsp rip : Word) (mem : Mem)

namespace ThreadMachine

def sched (m : ThreadMachine) : Scheduler := m.threads.sys.kernel.sched

def cpu (m : ThreadMachine) : Processor := ⟨m.reg, m.rsp, m.rip, m.heap.mem⟩

def withCpu (m : ThreadMachine) (cpu : Processor) : ThreadMachine :=
  { m with reg := cpu.reg, rsp := cpu.rsp, rip := cpu.rip, heap := { m.heap with mem := cpu.mem } }

/-- The end of `sched_yield`: switch stacks when there is another thread to run. -/
def switch (image : Image) (m : ThreadMachine) (prev : Option ThreadPtr) : ThreadMachine :=
  match m.sched.currentThread with
  | none => m
  | some next =>
      if prev = some next then m
      else
        let cpu := Arch.callContextSwitch m.cpu (image.slot prev)
          (loadWord m.heap.mem (image.slot (some next))) (image.returnAddress prev)
        { m.withCpu cpu with
          site := Function.update m.site prev ⟨m.reg, m.rsp, image.returnAddress prev⟩ }

def step (image : Image) (m : ThreadMachine) :
    ThreadMachineAction → Except ThreadMachineStop ThreadMachine
  | .sched act => do
      let threads ← (m.threads.step act).mapError .sched
      let heap := freeReleased m.heap (m.threads.sys.released act)
      pure ({ m with threads := threads, heap := heap }.switch image m.sched.currentThread)
  | .create entry pages => do
      let (heap, thread, stack) ← (allocThread m.heap entry pages).mapError .mm
      let threads ←
        (m.threads.step (.thread (.create entry thread stack) false)).mapError .sched
      match thread with
      | none => pure { m with threads := threads, heap := heap }
      | some t =>
          pure { m with
            threads := threads
            heap := { heap with mem := prepareThread image heap.mem t stack }
            site := Function.update m.site (some t) (image.freshSite (stackTop stack)) }
  | .run reg rsp rip mem => .ok (m.withCpu ⟨reg, rsp, rip, mem⟩)

/-- The stack of the running context has room for a frame of `arch_context_switch`. -/
def HasRoom (image : Image) (m : ThreadMachine) : Prop :=
  let stack := image.stackOf m.sched m.sched.currentThread
  stack.1 + 56 ≤ m.rsp.toNat ∧ m.rsp.toNat ≤ stack.1 + stack.2

/-- The bytes of the heap that the running context may write: its own stack, and thread objects
except for their `stack_pointer`. -/
def Writable (m : ThreadMachine) (x : ℕ) : Prop :=
  (∃ c, m.sched.currentThread = some c ∧ (m.sched.thread c).stackBase ≤ x ∧
    x < (m.sched.thread c).stackBase + kernelStackSize) ∨
  ∃ t : ℕ, t ∈ m.threads.hist.alive ∧ t ≤ x ∧ x < t + threadSize ∧
    ¬ (t + stackPointerOffset ≤ x ∧ x < t + stackPointerOffset + 8)

/-- What is asked of the running context: it yields with room on its stack, and in the heap it
writes only where it may. The heap is not at the end of the address space when it creates a
thread. -/
def Admissible (image : Image) (m : ThreadMachine) : ThreadMachineAction → Prop
  | .sched act => (∀ entry thread stack cond, act ≠ .thread (.create entry thread stack) cond) ∧
      (m.threads.sys.Yields act → m.HasRoom image)
  | .create _ _ => m.threads.sys.halted = false ∧ m.threads.sys.point = .entry ∧
      m.heap.heapEnd + 2 ^ 16 < 2 ^ 64
  | .run _ _ _ mem => ∀ x, Mm.heapBase ≤ x → x < m.heap.heapEnd → ¬ m.Writable x →
      mem x = m.heap.mem x

end ThreadMachine

/-- Boot: `heap_init`, `sched_init`, and calls of `kernel_thread_create`, which may fail. -/
inductive Prepared (image : Image) :
    Scheduler → History → Mm.Heap → (Option ThreadPtr → CallSite) → Prop
  | init {mem : Mem} {pages : ℕ → ℕ → Mm.PageOutcome} {heap : Mm.Heap}
      {site : Option ThreadPtr → CallSite} : Mm.heapInit (Mm.bootHeap mem) pages = .ok heap →
      Prepared image bootScheduler .empty heap site
  | create {s : Scheduler} {h : History} {heap heap' : Mm.Heap}
      {site : Option ThreadPtr → CallSite} {entry : ℕ} {pages : Bool → ℕ → Mm.PageOutcome}
      {t : ThreadPtr} {stack : ℕ} : Prepared image s h heap site →
      heap.heapEnd + 2 ^ 16 < 2 ^ 64 → allocThread heap entry pages = .ok (heap', some t, stack) →
      Prepared image (enqueueThread (initThread s t entry stack) t) (h.create t stack)
        { heap' with mem := prepareThread image heap'.mem t stack }
        (Function.update site (some t) (image.freshSite (stackTop stack)))
  | fail {s : Scheduler} {h : History} {heap heap' : Mm.Heap}
      {site : Option ThreadPtr → CallSite} {entry : ℕ} {pages : Bool → ℕ → Mm.PageOutcome}
      {stack : ℕ} : Prepared image s h heap site →
      heap.heapEnd + 2 ^ 16 < 2 ^ 64 → allocThread heap entry pages = .ok (heap', none, stack) →
      Prepared image s h heap' site

namespace ThreadMachine

/-- The states in which `sched_start` hands over to the scheduler. -/
structure Initial (image : Image) (m : ThreadMachine) : Prop where
  prepared : ∃ s i n, Prepared image s m.threads.hist m.heap m.site ∧ i ∈ m.threads.hist.alive ∧
    m.sched = { s with idleThread := some i, tickCount := n }
  entry : ∀ t ∈ m.threads.hist.alive, m.threads.sys.pc t = .entry
  free : m.threads.sys.kernel.locks.Free

def Reachable (image : Image) : ThreadMachine → Prop :=
  Reach (step image) (Initial image) (Admissible image)

end ThreadMachine

/-! ### Where the memory of the threads lies -/

def threadAllocations (s : Scheduler) (t : ℕ) : List (ℕ × ℕ) :=
  [(t, threadSize), ((s.thread t).stackBase, kernelStackSize)]

/-- What the threads `run` have taken from the heap. -/
def allocations (s : Scheduler) (run : List ℕ) : List (ℕ × ℕ) :=
  run.flatMap (threadAllocations s)

/-- The objects and stacks of the threads `run` are in the heap and lie apart. -/
structure Housed (s : Scheduler) (run : List ℕ) : Prop where
  object : ∀ t ∈ run, Mm.heapBase ≤ t ∧ t + threadSize ≤ 2 ^ 64
  stack : ∀ t ∈ run, Mm.heapBase ≤ (s.thread t).stackBase ∧
    (s.thread t).stackBase + kernelStackSize ≤ 2 ^ 64
  objectsApart : ∀ t ∈ run, ∀ u ∈ run, t ≠ u → Apart t threadSize u threadSize
  stacksApart : ∀ t ∈ run, ∀ u ∈ run, t ≠ u →
    Apart (s.thread t).stackBase kernelStackSize (s.thread u).stackBase kernelStackSize
  objectStackApart : ∀ t ∈ run, ∀ u ∈ run,
    Apart t threadSize (s.thread u).stackBase kernelStackSize

section
variable {image : Image} {s s' : Scheduler} {run : List ℕ} {h : Mm.Heap}
  {l : List Mm.Block} {t u : ℕ} {mem mem' : Mem} {site : CallSite}

theorem mem_allocations (ht : t ∈ run) : (t, threadSize) ∈ allocations s run ∧
    ((s.thread t).stackBase, kernelStackSize) ∈ allocations s run := by
  constructor
  · exact List.mem_flatMap.mpr ⟨t, ht, by simp [threadAllocations]⟩
  · exact List.mem_flatMap.mpr ⟨t, ht, by simp [threadAllocations]⟩

theorem allocations_congr (hs : ∀ t ∈ run, (s'.thread t).stackBase = (s.thread t).stackBase) :
    allocations s' run = allocations s run := by
  apply List.flatMap_congr
  intro t ht
  rw [threadAllocations, threadAllocations, hs t ht]

theorem allocations_concat : allocations s (run ++ [t]) =
    allocations s run ++ threadAllocations s t := by
  rw [allocations, List.flatMap_append, List.flatMap_singleton]
  rfl

/-- No two of the pointers are equal. -/
theorem pointers_ne (hl : Mm.Ledger h l (allocations s run)) (ht : t ∈ run) (hu : u ∈ run) :
    t ≠ (s.thread u).stackBase ∧ (t ≠ u → (s.thread t).stackBase ≠ (s.thread u).stackBase) := by
  have hnodup := hl.owns.nodup
  rw [allocations, List.map_flatMap, List.nodup_flatMap] at hnodup
  obtain ⟨hself, hother⟩ := hnodup
  have hsymm : Std.Symm (Function.onFun List.Disjoint fun t =>
      (threadAllocations s t).map Prod.fst) := ⟨fun _ _ h => h.symm⟩
  have hdisjoint : t ≠ u → List.Disjoint ((threadAllocations s t).map Prod.fst)
      ((threadAllocations s u).map Prod.fst) := hother.forall ht hu
  constructor
  · by_cases htu : t = u
    · subst htu
      have hpair := hself t ht
      simp only [threadAllocations, List.map_cons, List.map_nil, List.nodup_cons,
        List.mem_singleton] at hpair
      exact hpair.1
    · intro heq
      apply hdisjoint htu (a := t)
      · simp [threadAllocations]
      · simp [threadAllocations, heq]
  · intro htu heq
    apply hdisjoint htu (a := (s.thread t).stackBase)
    · simp [threadAllocations]
    · simp [threadAllocations, heq]

theorem Housed.of_ledger (hl : Mm.Ledger h l (allocations s run)) : Housed s run := by
  have hbound := hl.good.shows.bound
  refine ⟨?_, ?_, ?_, ?_, ?_⟩
  · intro t ht
    have hin := hl.inside (mem_allocations ht).1
    omega
  · intro t ht
    have hin := hl.inside (mem_allocations ht).2
    omega
  · intro t ht u hu hne
    exact hl.apart (mem_allocations ht).1 (mem_allocations hu).1 hne
  · intro t ht u hu hne
    exact hl.apart (mem_allocations ht).2 (mem_allocations hu).2 ((pointers_ne hl ht hu).2 hne)
  · intro t ht u hu
    exact hl.apart (mem_allocations ht).1 (mem_allocations hu).2 (pointers_ne hl ht hu).1

theorem slot_toNat (image : Image) (hp : Housed s run) (ht : t ∈ run) :
    (image.slot (some t)).toNat = t + stackPointerOffset := by
  have hin := hp.object t ht
  simp only [threadSize] at hin
  rw [Image.slot, BitVec.toNat_ofNat, stackPointerOffset]
  omega

theorem stackBase_toNat (hp : Housed s run) (ht : t ∈ run) :
    (BitVec.ofNat 64 (s.thread t).stackBase).toNat = (s.thread t).stackBase := by
  have hin := hp.stack t ht
  simp only [kernelStackSize] at hin
  rw [BitVec.toNat_ofNat]
  omega

/-! #### The layout of the live threads -/

def liveStackBase (image : Image) (s : Scheduler) (p : Option {t // t ∈ run}) : Word :=
  p.elim image.kernelStack fun t => BitVec.ofNat 64 (s.thread t).stackBase

def liveStackSize (p : Option {t // t ∈ run}) : ℕ := p.elim bootStackSize fun _ => kernelStackSize

def liveSlot (image : Image) (p : Option {t // t ∈ run}) : Word := image.slot (p.map Subtype.val)

theorem liveStackBase_some (hp : Housed s run) (t : {t // t ∈ run}) :
    (liveStackBase image s (some t)).toNat = (s.thread t).stackBase := stackBase_toNat hp t.2

theorem liveSlot_some (hp : Housed s run) (t : {t // t ∈ run}) :
    (liveSlot image (some t)).toNat = t + stackPointerOffset := slot_toNat image hp t.2

theorem val_ne {t u : {t // t ∈ run}} (h : some t ≠ some u) : t.1 ≠ u.1 :=
  fun heq => h (congrArg some (Subtype.ext heq))

theorem live_stack_inside (image : Image) (hp : Housed s run) (p : Option {t // t ∈ run}) :
    (liveStackBase image s p).toNat + liveStackSize p ≤ 2 ^ 64 := by
  cases p with
  | none =>
    have hlow := image.stack_low
    exact hlow.trans (by decide)
  | some t =>
    rw [liveStackBase_some hp]
    exact (hp.stack t t.2).2

theorem live_slot_inside (image : Image) (hp : Housed s run) (p : Option {t // t ∈ run}) :
    (liveSlot image p).toNat + 8 ≤ 2 ^ 64 := by
  cases p with
  | none =>
    have hlow := image.slot_low
    exact hlow.trans (by decide)
  | some t =>
    have hin := hp.object t t.2
    rw [liveSlot_some hp, stackPointerOffset]
    simp only [threadSize] at hin
    omega

theorem live_stacks_apart (image : Image) (hp : Housed s run) (p q : Option {t // t ∈ run})
    (hne : p ≠ q) : Apart (liveStackBase image s p).toNat (liveStackSize p)
      (liveStackBase image s q).toNat (liveStackSize q) := by
  have hlow := image.stack_low
  cases p with
  | none =>
    cases q with
    | none => exact absurd rfl hne
    | some u =>
      rw [liveStackBase_some hp]
      exact .inl (hlow.trans (hp.stack u u.2).1)
  | some t =>
    rw [liveStackBase_some hp]
    cases q with
    | none => exact .inr (hlow.trans (hp.stack t t.2).1)
    | some u =>
      rw [liveStackBase_some hp]
      exact hp.stacksApart t t.2 u u.2 (val_ne hne)

theorem live_slots_apart (image : Image) (hp : Housed s run) (p q : Option {t // t ∈ run})
    (hne : p ≠ q) : Apart (liveSlot image p).toNat 8 (liveSlot image q).toNat 8 := by
  have hlow := image.slot_low
  cases p with
  | none =>
    cases q with
    | none => exact absurd rfl hne
    | some u =>
      rw [liveSlot_some hp]
      exact .inl (hlow.trans ((hp.object u u.2).1.trans (Nat.le_add_right _ _)))
  | some t =>
    rw [liveSlot_some hp]
    cases q with
    | none => exact .inr (hlow.trans ((hp.object t t.2).1.trans (Nat.le_add_right _ _)))
    | some u =>
      rw [liveSlot_some hp]
      have hapart := hp.objectsApart t t.2 u u.2 (val_ne hne)
      simp only [Apart, threadSize, stackPointerOffset] at hapart ⊢
      omega

theorem live_slot_stack_apart (image : Image) (hp : Housed s run) (p q : Option {t // t ∈ run}) :
    Apart (liveSlot image p).toNat 8 (liveStackBase image s q).toNat (liveStackSize q) := by
  cases p with
  | none =>
    cases q with
    | none => exact image.apart
    | some u =>
      rw [liveStackBase_some hp]
      exact .inl (image.slot_low.trans (hp.stack u u.2).1)
  | some t =>
    rw [liveSlot_some hp]
    cases q with
    | none =>
      exact .inr (image.stack_low.trans ((hp.object t t.2).1.trans (Nat.le_add_right _ _)))
    | some u =>
      rw [liveStackBase_some hp]
      have hapart := hp.objectStackApart t t.2 u u.2
      simp only [Apart, threadSize, stackPointerOffset, liveStackSize, Option.elim_some]
        at hapart ⊢
      omega

/-- The stacks and stack pointers of live threads and of the boot context meet what context
switching asks for. -/
def liveLayout (image : Image) (hp : Housed s run) : Arch.Layout {t // t ∈ run} where
  stackBase := liveStackBase image s
  stackSize := liveStackSize
  slot := liveSlot image
  stackSize_eq _ := rfl
  stack_inside := live_stack_inside image hp
  slot_inside := live_slot_inside image hp
  stacks_apart := live_stacks_apart image hp
  slots_apart := live_slots_apart image hp
  slot_stack_apart := live_slot_stack_apart image hp

end

end Tianole.Sched
