import Mathlib.Data.Fintype.Option
import Tianole.Arch.Switch
import Tianole.Lib.Runs
import Tianole.Lib.Word
import Tianole.Sched.Core

/-! Threads that switch stacks. The boot context creates threads and switches away; from then on the
running thread executes its own code, creates threads, and calls `arch_context_switch`. Every
suspended thread keeps a frame of seven words on its own stack, and its `stack_pointer` leads there. -/
namespace Tianole.Arch
open Memory ByteStack Runs

/-- The `n` bytes from `a` on and the `k` bytes from `b` on have none in common. -/
def Apart (a n b k : ℕ) : Prop := a + n ≤ b ∨ b + k ≤ a

/-- The stacks of the threads and of the boot context, `none`, and the variables that their stack
pointers are saved in: `thread->stack_pointer` and `boot_stack_pointer`. -/
structure Layout (T : Type) where
  stackBase : Option T → Word
  stackSize : Option T → ℕ
  slot : Option T → Word
  stackSize_eq : ∀ t, stackSize (some t) = Sched.kernelStackSize
  stack_inside : ∀ p, (stackBase p).toNat + stackSize p ≤ 2 ^ 64
  slot_inside : ∀ p, (slot p).toNat + 8 ≤ 2 ^ 64
  stacks_apart : ∀ p q, p ≠ q →
    Apart (stackBase p).toNat (stackSize p) (stackBase q).toNat (stackSize q)
  slots_apart : ∀ p q, p ≠ q → Apart (slot p).toNat 8 (slot q).toNat 8
  slot_stack_apart : ∀ p q, Apart (slot p).toNat 8 (stackBase q).toNat (stackSize q)

inductive Phase where
  | absent
  | fresh
  | called (site : CallSite)
  | running

structure Threads (T : Type) where
  cpu : Processor
  current : Option T
  phase : Option T → Phase

inductive ThreadAction (T : Type) where
  /-- Code of the running context that ends in the state `cpu`. -/
  | run (cpu : Processor)
  | create (t : T)
  /-- `arch_context_switch(&prev->stack_pointer, next->stack_pointer)`, called by `prev` -/
  | switch (next : T) (returnAddress : Word)

variable {T : Type}

namespace Layout

/-- `thread->stack_top` in `kernel_thread_create`. -/
def stackTop (layout : Layout T) (t : T) : Word :=
  alignDownUintptr (layout.stackBase (some t) + BitVec.ofNat 64 Sched.kernelStackSize)
    stackAlignment

/-- The stack that `kernel_thread_create` prepares. -/
def createStack (layout : Layout T) (trampoline : Word) (mem : Mem) (t : T) : Mem :=
  let prepared := prepareInitialStack trampoline mem (layout.stackTop t)
  storeWord prepared.1 (layout.slot (some t)) prepared.2

end Layout

namespace Threads
variable [DecidableEq T]

def step (layout : Layout T) (trampoline : Word) (σ : Threads T) : ThreadAction T → Threads T
  | .run cpu => { σ with cpu := cpu }
  | .create t =>
      { σ with cpu := { σ.cpu with mem := layout.createStack trampoline σ.cpu.mem t }
               phase := Function.update σ.phase (some t) .fresh }
  | .switch next returnAddress =>
      { cpu := callContextSwitch σ.cpu (layout.slot σ.current)
          (loadWord σ.cpu.mem (layout.slot (some next))) returnAddress
        current := some next
        phase := Function.update
          (Function.update σ.phase σ.current (.called ⟨σ.cpu.reg, σ.cpu.rsp, returnAddress⟩))
          (some next) .running }

end Threads

/-- A context that has been created and does not run. -/
def Phase.Suspended : Phase → Prop
  | .fresh | .called _ => True
  | _ => False

/-- The running context leaves the stacks and the stack pointers of suspended threads alone, and a
call of `arch_context_switch` has room for its frame on the caller's stack. -/
def Admissible (layout : Layout T) (σ : Threads T) : ThreadAction T → Prop
  | .run cpu => ∀ p, (σ.phase p).Suspended → ∀ x,
      ((layout.stackBase p).toNat ≤ x ∧ x < (layout.stackBase p).toNat + layout.stackSize p) ∨
        ((layout.slot p).toNat ≤ x ∧ x < (layout.slot p).toNat + 8) → cpu.mem x = σ.cpu.mem x
  | .create t => σ.phase (some t) = .absent
  | .switch next _ => (σ.phase (some next)).Suspended ∧
      (layout.stackBase σ.current).toNat + 56 ≤ σ.cpu.rsp.toNat ∧
      σ.cpu.rsp.toNat ≤ (layout.stackBase σ.current).toNat + layout.stackSize σ.current

/-- The boot context runs, and no thread has been created. -/
structure Threads.Initial (σ : Threads T) : Prop where
  current : σ.current = none
  boot : σ.phase none = .running
  threads : ∀ t, σ.phase (some t) = .absent

def ThreadsReachable [DecidableEq T] (layout : Layout T) (trampoline : Word) : Threads T → Prop :=
  Reach (fun σ act => (.ok (σ.step layout trampoline act) : Except Empty (Threads T)))
    Threads.Initial (Admissible layout)

/-! ### The frame of a suspended thread -/

/-- Where a new thread seems to have called `arch_context_switch`. -/
def Layout.freshSite (layout : Layout T) (trampoline : Word) (t : T) : CallSite :=
  ⟨fun _ => 0, layout.stackTop t - 8, trampoline⟩

/-- The call from which a suspended thread will return. -/
def Layout.site (layout : Layout T) (trampoline : Word) : Option T → Phase → Option CallSite
  | some t, .fresh => some (layout.freshSite trampoline t)
  | _, .called s => some s
  | _, _ => none

/-- The frame of a call lies on the stack of `p`, and the saved pointer leads to it. -/
structure Parked (layout : Layout T) (mem : Mem) (p : Option T) (s : CallSite) : Prop where
  low : (layout.stackBase p).toNat + 56 ≤ s.rsp.toNat
  high : s.rsp.toNat ≤ (layout.stackBase p).toNat + layout.stackSize p
  pointer : loadWord mem (layout.slot p) = s.pointer
  frame : Holds mem s.pointer s.frame

structure Threads.Inv (layout : Layout T) (trampoline : Word) (σ : Threads T) : Prop where
  running : ∀ p, σ.phase p = .running ↔ p = σ.current
  parked : ∀ p s, layout.site trampoline p (σ.phase p) = some s → Parked layout σ.cpu.mem p s

section
variable {layout : Layout T} {trampoline : Word} {mem mem' : Mem} {p q : Option T} {s : CallSite}

theorem CallSite.pointer_toNat {base : ℕ} (h : base + 56 ≤ s.rsp.toNat) :
    s.pointer.toNat = s.rsp.toNat - 56 := by
  have h56 : (56 : Word).toNat = 56 := rfl
  have hrsp := s.rsp.isLt
  rw [CallSite.pointer, BitVec.toNat_sub, h56]
  omega

/-- A parked thread stays parked while its stack and its stack pointer are left alone. -/
theorem Parked.congr (h : Parked layout mem p s)
    (hstack : ∀ x, (layout.stackBase p).toNat ≤ x →
      x < (layout.stackBase p).toNat + layout.stackSize p → mem' x = mem x)
    (hslot : ∀ x, (layout.slot p).toNat ≤ x → x < (layout.slot p).toNat + 8 → mem' x = mem x) :
    Parked layout mem' p s := by
  have hpointer := CallSite.pointer_toNat h.low
  have hlength : s.frame.length = 7 := rfl
  have hrsp := s.rsp.isLt
  have hlow := h.low
  have hhigh := h.high
  refine ⟨hlow, hhigh, (loadWord_congr hslot).trans h.pointer, ?_⟩
  exact h.frame.congr (by omega) fun x h₁ h₂ => hstack x (by omega) (by omega)

/-- A switch parks its caller. -/
theorem Parked.caller {m : Processor} {returnAddress : Word}
    (hlow : (layout.stackBase p).toNat + 56 ≤ m.rsp.toNat)
    (hhigh : m.rsp.toNat ≤ (layout.stackBase p).toNat + layout.stackSize p) :
    Parked layout (m.savedMem (layout.slot p) returnAddress) p ⟨m.reg, m.rsp, returnAddress⟩ := by
  have hapart := layout.slot_stack_apart p p
  refine ⟨hlow, hhigh, savedMem_slot (by omega), savedMem_frame (by omega) ?_⟩
  rw [Apart] at hapart
  omega

/-- And leaves the others parked. -/
theorem Parked.other {m : Processor} {returnAddress : Word} (h : Parked layout m.mem q s)
    (hne : q ≠ p) (hlow : (layout.stackBase p).toNat + 56 ≤ m.rsp.toNat)
    (hhigh : m.rsp.toNat ≤ (layout.stackBase p).toNat + layout.stackSize p) :
    Parked layout (m.savedMem (layout.slot p) returnAddress) q s := by
  have hstacks := layout.stacks_apart q p hne
  have hslots := layout.slots_apart q p hne
  have hqp := layout.slot_stack_apart q p
  have hpq := layout.slot_stack_apart p q
  rw [Apart] at hstacks hslots hqp hpq
  refine h.congr (fun x h₁ h₂ => ?_) (fun x h₁ h₂ => ?_)
  · exact savedMem_outside (by omega) (by omega) (by omega)
  · exact savedMem_outside (by omega) (by omega) (by omega)

/-! ### New threads -/

theorem alignDownUintptr_toNat (v : Word) :
    (alignDownUintptr v stackAlignment).toNat = v.toNat / 16 * 16 := by
  have hmask : (~~~(stackAlignment - 1)).toNat = Word.not64 (2 ^ 4 - 1) := rfl
  rw [alignDownUintptr, BitVec.toNat_and, hmask]
  exact Word.land_not64 (by decide) v.isLt

/-- The stack pointer with which a new thread starts. A stack may end at the very top of the
address space; then `stack_top` is zero. -/
theorem Layout.stackTop_toNat (layout : Layout T) (t : T) :
    (layout.stackTop t - 8).toNat =
      ((layout.stackBase (some t)).toNat + Sched.kernelStackSize) / 16 * 16 - 8 := by
  have hinside := layout.stack_inside (some t)
  have h8 : (8 : Word).toNat = 8 := rfl
  have hsize : Sched.kernelStackSize = 16384 := rfl
  rw [layout.stackSize_eq t] at hinside
  rw [BitVec.toNat_sub, Layout.stackTop, alignDownUintptr_toNat, BitVec.toNat_add,
    BitVec.toNat_ofNat, h8]
  omega

theorem Layout.stackTop_bounds (layout : Layout T) (t : T) :
    (layout.stackBase (some t)).toNat + 64 ≤ (layout.stackTop t - 8).toNat ∧
      (layout.stackTop t - 8).toNat + 8 ≤
        (layout.stackBase (some t)).toNat + layout.stackSize (some t) := by
  have hsize : Sched.kernelStackSize = 16384 := rfl
  rw [layout.stackTop_toNat, layout.stackSize_eq]
  omega

/-- What `prepare_initial_stack` leaves in memory. -/
theorem prepareInitialStack_spec (layout : Layout T) (trampoline : Word) (mem : Mem) (t : T) :
    (prepareInitialStack trampoline mem (layout.stackTop t)).2 =
        (layout.freshSite trampoline t).pointer ∧
      Holds (prepareInitialStack trampoline mem (layout.stackTop t)).1
        (layout.freshSite trampoline t).pointer (layout.freshSite trampoline t).frame ∧
      ∀ x, x < (layout.stackBase (some t)).toNat ∨
          (layout.stackBase (some t)).toNat + layout.stackSize (some t) ≤ x →
        (prepareInitialStack trampoline mem (layout.stackTop t)).1 x = mem x := by
  obtain ⟨hlow, hhigh⟩ := layout.stackTop_bounds t
  -- The first word lies above the frame.
  have hprepare : prepareInitialStack trampoline mem (layout.stackTop t) =
      [trampoline, 0, 0, 0, 0, 0, 0].foldl push
        (storeWord mem (layout.stackTop t - 8) 0, layout.stackTop t - 8) := by
    rw [prepareInitialStack, initialStack, List.foldl_cons, push]
  have hnil : Holds (storeWord mem (layout.stackTop t - 8) 0) (layout.stackTop t - 8) [] := trivial
  have hlt := (layout.stackTop t - 8).isLt
  obtain ⟨hholds, htop, houtside⟩ := hnil.pushAll [trampoline, 0, 0, 0, 0, 0, 0]
    (by simp only [List.length_cons, List.length_nil]; omega)
    (by simp only [List.length_nil]; omega)
  rw [← hprepare] at hholds htop houtside
  simp only [List.length_cons, List.length_nil] at htop houtside
  have hframe : [trampoline, 0, 0, 0, 0, 0, 0].reverse ++ [] =
      (layout.freshSite trampoline t).frame := rfl
  have hpointer : (layout.freshSite trampoline t).pointer.toNat =
      (layout.stackTop t - 8).toNat - 56 := CallSite.pointer_toNat (by
    simp only [Layout.freshSite]
    exact Nat.le_trans (Nat.add_le_add_left (by decide) _) hlow)
  have hsp := BitVec.eq_of_toNat_eq (htop.trans hpointer.symm)
  rw [hsp, hframe] at hholds
  refine ⟨hsp, hholds, fun x hx => ?_⟩
  rw [houtside x (by omega), storeWord_of_outside (by omega)]

/-- A new thread is parked on the stack that was prepared for it. -/
theorem Parked.created (layout : Layout T) (trampoline : Word) (mem : Mem) (t : T) :
    Parked layout (layout.createStack trampoline mem t) (some t)
      (layout.freshSite trampoline t) := by
  obtain ⟨hlow, hhigh⟩ := layout.stackTop_bounds t
  obtain ⟨hpointer, hholds, -⟩ := prepareInitialStack_spec layout trampoline mem t
  have hrsp : (layout.freshSite trampoline t).rsp = layout.stackTop t - 8 := rfl
  have hlow' : (layout.stackBase (some t)).toNat + 56 ≤
      (layout.freshSite trampoline t).rsp.toNat := by
    rw [hrsp]
    omega
  have htoNat := CallSite.pointer_toNat hlow'
  have hapart := layout.slot_stack_apart (some t) (some t)
  have hlength : (layout.freshSite trampoline t).frame.length = 7 := rfl
  have hlt := (layout.freshSite trampoline t).rsp.isLt
  rw [Apart] at hapart
  rw [hrsp] at htoNat hlt
  refine ⟨hlow', by rw [hrsp]; omega, ?_, ?_⟩
  · rw [Layout.createStack, loadWord_storeWord, hpointer]
  · refine hholds.congr (by omega) fun x h₁ h₂ => ?_
    rw [Layout.createStack, storeWord_of_outside (by omega)]

theorem Parked.creation (h : Parked layout mem q s) {t : T} (hne : q ≠ some t) :
    Parked layout (layout.createStack trampoline mem t) q s := by
  obtain ⟨-, -, houtside⟩ := prepareInitialStack_spec layout trampoline mem t
  have hstacks := layout.stacks_apart q (some t) hne
  have hslots := layout.slots_apart q (some t) hne
  have hqt := layout.slot_stack_apart q (some t)
  have htq := layout.slot_stack_apart (some t) q
  rw [Apart] at hstacks hslots hqt htq
  refine h.congr (fun x h₁ h₂ => ?_) (fun x h₁ h₂ => ?_)
  · rw [Layout.createStack, storeWord_of_outside (by omega), houtside x (by omega)]
  · rw [Layout.createStack, storeWord_of_outside (by omega), houtside x (by omega)]

/-! ### Runs -/

variable {σ : Threads T} {act : ThreadAction T}

theorem Layout.site_suspended {phase : Phase} (h : layout.site trampoline p phase = some s) :
    phase.Suspended := by
  cases phase with
  | fresh | called => trivial
  | absent | running => cases p <;> cases h

theorem Layout.exists_site {phase : Phase} {t : T} (h : phase.Suspended) :
    ∃ s, layout.site trampoline (some t) phase = some s := by
  cases phase with
  | fresh => exact ⟨_, rfl⟩
  | called s => exact ⟨s, rfl⟩
  | absent | running => exact h.elim

variable [DecidableEq T]

/-- A switch resumes the thread that it switches to. -/
theorem Threads.Inv.switch (h : σ.Inv layout trampoline) {t : T} {returnAddress : Word}
    (hadm : Admissible layout σ (.switch t returnAddress))
    (hs : layout.site trampoline (some t) (σ.phase (some t)) = some s) :
    s.Resumed (σ.step layout trampoline (.switch t returnAddress)).cpu ∧
      (σ.step layout trampoline (.switch t returnAddress)).cpu.mem =
        σ.cpu.savedMem (layout.slot σ.current) returnAddress := by
  obtain ⟨hsuspended, hlow, hhigh⟩ := hadm
  have hne : some t ≠ σ.current := by
    intro heq
    rw [(h.running _).mpr heq] at hsuspended
    exact hsuspended
  have hparked := h.parked _ s hs
  have hother : Parked layout (σ.cpu.savedMem (layout.slot σ.current) returnAddress) (some t) s :=
    hparked.other hne hlow hhigh
  simp only [Threads.step, hparked.pointer]
  exact callContextSwitch_resumes hother.frame

theorem Threads.Inv.step (h : σ.Inv layout trampoline) (hadm : Admissible layout σ act) :
    (σ.step layout trampoline act).Inv layout trampoline := by
  cases act with
  | run cpu =>
    refine ⟨h.running, fun p s hs => (h.parked p s hs).congr ?_ ?_⟩
    · exact fun x h₁ h₂ => hadm p (Layout.site_suspended hs) x (.inl ⟨h₁, h₂⟩)
    · exact fun x h₁ h₂ => hadm p (Layout.site_suspended hs) x (.inr ⟨h₁, h₂⟩)
  | create t =>
    replace hadm : σ.phase (some t) = .absent := hadm
    have hne : some t ≠ σ.current := by
      intro heq
      have hrunning := (h.running _).mpr heq
      rw [hadm] at hrunning
      cases hrunning
    refine ⟨fun p => ?_, fun p s hs => ?_⟩
    · simp only [Threads.step, Function.update_apply]
      split
      next hp => simp [hp, hne]
      next => exact h.running p
    · simp only [Threads.step, Function.update_apply] at hs ⊢
      split at hs
      next hp =>
        subst hp
        obtain rfl := Option.some.inj hs
        exact Parked.created layout trampoline σ.cpu.mem t
      next hp => exact (h.parked p s hs).creation hp
  | switch t returnAddress =>
    have hsite : ∃ s, layout.site trampoline (some t) (σ.phase (some t)) = some s :=
      Layout.exists_site hadm.1
    obtain ⟨target, htarget⟩ := hsite
    obtain ⟨-, hmem⟩ := h.switch hadm htarget
    refine ⟨fun p => ?_, fun p s hs => ?_⟩
    · simp only [Threads.step, Function.update_apply]
      split
      next hp => simp [hp]
      next hp =>
        split
        next => simp [hp]
        next hcurrent => simp [hp, h.running p, hcurrent]
    · rw [hmem]
      simp only [Threads.step, Function.update_apply] at hs
      split at hs
      next => cases p <;> cases hs
      next =>
        split at hs
        next hp =>
          have hsite : some ⟨σ.cpu.reg, σ.cpu.rsp, returnAddress⟩ = some s := by
            cases p <;> exact hs
          obtain rfl := Option.some.inj hsite
          rw [hp]
          exact .caller hadm.2.1 hadm.2.2
        next hp => exact (h.parked p s hs).other hp hadm.2.1 hadm.2.2

theorem ThreadsReachable.inv (h : ThreadsReachable layout trampoline σ) :
    σ.Inv layout trampoline := by
  refine Reach.invariant (I := fun σ => σ.Inv layout trampoline) h ?_ ?_
  · intro σ hσ
    refine ⟨fun p => ?_, fun p s hs => ?_⟩
    · cases p with
      | none => simp [hσ.boot, hσ.current]
      | some t => simp [hσ.threads t, hσ.current]
    · cases p with
      | none => simp [hσ.boot, Layout.site] at hs
      | some t => simp [hσ.threads t, Layout.site] at hs
  · rintro σ act σ' hσ hadm hs
    obtain rfl := Except.ok.inj hs
    exact hσ.step hadm

end

/-- A thread that is switched back in returns from its call of `arch_context_switch` to the address
it was called from, with the stack pointer and the callee-saved registers as they were; the first
switch to a thread enters `thread_trampoline` with an aligned stack and those registers zero. -/
theorem context_switch_preserves [DecidableEq T] {layout : Layout T} {trampoline : Word}
    {σ : Threads T} (h : ThreadsReachable layout trampoline σ) (t : T) (returnAddress : Word)
    (hadm : Admissible layout σ (.switch t returnAddress)) :
    (∀ site, σ.phase (some t) = .called site →
      site.Resumed (σ.step layout trampoline (.switch t returnAddress)).cpu) ∧
    (σ.phase (some t) = .fresh →
      (σ.step layout trampoline (.switch t returnAddress)).cpu.rip = trampoline ∧
      (σ.step layout trampoline (.switch t returnAddress)).cpu.rsp = layout.stackTop t - 8 ∧
      (σ.step layout trampoline (.switch t returnAddress)).cpu.rsp.toNat % 16 = 8 ∧
      ∀ r, r.calleeSaved = true →
        (σ.step layout trampoline (.switch t returnAddress)).cpu.reg r = 0) := by
  refine ⟨fun site hphase => ?_, fun hphase => ?_⟩
  · exact (h.inv.switch hadm (by rw [hphase]; rfl)).1
  · have hresumed := (h.inv.switch (s := layout.freshSite trampoline t) hadm
      (by rw [hphase]; rfl)).1
    refine ⟨hresumed.rip, hresumed.rsp, ?_, hresumed.reg⟩
    obtain ⟨hlow, -⟩ := layout.stackTop_bounds t
    have haligned := layout.stackTop_toNat t
    rw [hresumed.rsp]
    simp only [Layout.freshSite]
    omega

/-- Two threads and the boot context. -/
def twoThreads : Layout Bool where
  stackBase
    | none => 0x1000
    | some false => 0x10000
    | some true => 0x20000
  stackSize
    | none => 0x1000
    | some _ => Sched.kernelStackSize
  slot
    | none => 0x100
    | some false => 0x108
    | some true => 0x110
  stackSize_eq _ := rfl
  stack_inside := by decide
  slot_inside := by decide
  stacks_apart := by unfold Apart; decide
  slots_apart := by unfold Apart; decide
  slot_stack_apart := by unfold Apart; decide

/-- Thread `false` runs first, calls the switch with the stack pointer 0x13000, and is switched
back in by thread `true`, which runs at 0x23000. -/
theorem context_switch_preserves_back : ∃ (σ : Threads Bool) (site : CallSite),
    ThreadsReachable twoThreads 0x400000 σ ∧ σ.phase (some false) = .called site ∧
    site.rsp = 0x13000 ∧
    site.Resumed (σ.step twoThreads 0x400000 (.switch false 0x500000)).cpu := by
  let σ₀ : Threads Bool := ⟨⟨fun _ => 7, 0x1800, 0, fun _ => 0⟩, none,
    fun p => if p = none then .running else .absent⟩
  let next (σ : Threads Bool) := σ.step twoThreads 0x400000
  let σ₁ := next (next σ₀ (.create false)) (.create true)
  let σ₂ := next σ₁ (.switch false 0x500000)
  let σ₃ := next σ₂ (.run { σ₂.cpu with rsp := 0x13000 })
  let σ₄ := next σ₃ (.switch true 0x500000)
  let σ₅ := next σ₄ (.run { σ₄.cpu with rsp := 0x23000 })
  have hstep {σ : Threads Bool} {act : ThreadAction Bool} (h : ThreadsReachable twoThreads 0x400000 σ)
      (hadm : Admissible twoThreads σ act) : ThreadsReachable twoThreads 0x400000 (next σ act) :=
    Reach.next h hadm rfl
  have h₀ : ThreadsReachable twoThreads 0x400000 σ₀ := .start ⟨rfl, rfl, fun _ => rfl⟩
  have h₁ : ThreadsReachable twoThreads 0x400000 σ₁ := hstep (hstep h₀ rfl) rfl
  have h₂ : ThreadsReachable twoThreads 0x400000 σ₂ := hstep h₁ ⟨trivial, by decide, by decide⟩
  have h₃ : ThreadsReachable twoThreads 0x400000 σ₃ := hstep h₂ fun _ _ _ _ => rfl
  have h₄ : ThreadsReachable twoThreads 0x400000 σ₄ := hstep h₃ ⟨trivial, by decide, by decide⟩
  have h₅ : ThreadsReachable twoThreads 0x400000 σ₅ := hstep h₄ fun _ _ _ _ => rfl
  refine ⟨σ₅, ⟨σ₃.cpu.reg, 0x13000, 0x500000⟩, h₅, rfl, rfl, ?_⟩
  exact (context_switch_preserves h₅ false 0x500000 ⟨trivial, by decide, by decide⟩).1 _ rfl

end Tianole.Arch
