import Tianole.Sched.RoundRobin
import Tianole.Sched.ThreadMemory

/-! In every run, the heap holds the objects and stacks of the live threads and nothing else, and
every thread that is switched to goes on where it left off. -/
namespace Tianole.Sched
open Memory ByteStack Runs
open Arch (CallSite Processor Reg Apart)

/-- The context of a suspended thread: the frame of its call lies on its stack, and
`stack_pointer` leads there. -/
structure Saved (image : Image) (mem : Mem) (t stack : ℕ) (site : CallSite) : Prop where
  low : stack + 56 ≤ site.rsp.toNat
  high : site.rsp.toNat ≤ stack + kernelStackSize
  pointer : loadWord mem (image.slot (some t)) = site.pointer
  frame : Holds mem site.pointer site.frame

/-- The memory of the threads `run`: the heap holds what they have allocated and nothing else, and
all but the current one are saved. -/
structure Backed (image : Image) (s : Scheduler) (run : List ℕ) (heap : Mm.Heap)
    (site : Option ℕ → CallSite) : Prop where
  ledger : ∃ l, Mm.Ledger heap l (allocations s run)
  saved : ∀ t ∈ run, s.currentThread ≠ some t →
    Saved image heap.mem t (s.thread t).stackBase (site (some t))

section
variable {image : Image} {s s' : Scheduler} {run : List ℕ} {heap heap' : Mm.Heap}
  {l : List Mm.Block} {t u stack entry : ℕ} {mem mem' : Mem} {site : Option ℕ → CallSite}
  {live : List (ℕ × ℕ)}

/-! ### Saved contexts -/

theorem Housed.parked_iff (hp : Housed s run) (ht : t ∈ run) {site : CallSite} :
    Arch.Parked (liveLayout image hp) mem (some ⟨t, ht⟩) site ↔
      Saved image mem t (s.thread t).stackBase site := by
  have hbase : ((liveLayout image hp).stackBase (some ⟨t, ht⟩)).toNat = (s.thread t).stackBase :=
    stackBase_toNat hp ht
  constructor
  · rintro ⟨hlow, hhigh, hpointer, hframe⟩
    rw [hbase] at hlow hhigh
    exact ⟨hlow, hhigh, hpointer, hframe⟩
  · rintro ⟨hlow, hhigh, hpointer, hframe⟩
    refine ⟨?_, ?_, hpointer, hframe⟩
    · rw [hbase]
      exact hlow
    · rw [hbase]
      exact hhigh

/-- A saved context survives as long as the memory of its thread does. -/
theorem Housed.saved_congr (hp : Housed s run) (ht : t ∈ run) {site : CallSite}
    (h : Saved image mem t (s.thread t).stackBase site)
    (hstack : ∀ x, (s.thread t).stackBase ≤ x → x < (s.thread t).stackBase + kernelStackSize →
      mem' x = mem x)
    (hslot : ∀ x, t + stackPointerOffset ≤ x → x < t + stackPointerOffset + 8 → mem' x = mem x) :
    Saved image mem' t (s.thread t).stackBase site := by
  rw [← hp.parked_iff ht] at h ⊢
  have hbase : ((liveLayout image hp).stackBase (some ⟨t, ht⟩)).toNat = (s.thread t).stackBase :=
    stackBase_toNat hp ht
  have hpointer : ((liveLayout image hp).slot (some ⟨t, ht⟩)).toNat = t + stackPointerOffset :=
    slot_toNat image hp ht
  apply h.congr
  · rw [hbase]
    exact hstack
  · rw [hpointer]
    exact hslot

theorem within_stack (ht : t ∈ run) {x : ℕ} (hlow : (s.thread t).stackBase ≤ x)
    (hhigh : x < (s.thread t).stackBase + kernelStackSize) : Mm.Within (allocations s run) x :=
  ⟨_, (mem_allocations ht).2, hlow, hhigh⟩

theorem within_object (ht : t ∈ run) {x : ℕ} (hlow : t ≤ x) (hhigh : x < t + threadSize) :
    Mm.Within (allocations s run) x :=
  ⟨_, (mem_allocations ht).1, hlow, hhigh⟩

/-- Calls of the allocator leave the contexts of the remaining threads alone. -/
theorem Backed.saved_kept (h : Backed image s run heap site) {run' : List ℕ}
    (hsub : ∀ t ∈ run', t ∈ run)
    (hmem : ∀ x, Mm.Within (allocations s run') x → mem' x = heap.mem x) (ht : t ∈ run')
    (hc : s.currentThread ≠ some t) :
    Saved image mem' t (s.thread t).stackBase (site (some t)) := by
  obtain ⟨l, hl⟩ := h.ledger
  have hp := Housed.of_ledger hl
  apply hp.saved_congr (hsub t ht) (h.saved t (hsub t ht) hc)
  · intro x hlow hhigh
    exact hmem x (within_stack ht hlow hhigh)
  · intro x hlow hhigh
    simp only [stackPointerOffset] at hlow hhigh
    apply hmem x (within_object ht (by omega) _)
    simp only [threadSize]
    omega

/-- Only the stacks of the threads and the current thread matter of the scheduler. -/
theorem Backed.withSched (h : Backed image s run heap site)
    (hstack : ∀ t ∈ run, (s'.thread t).stackBase = (s.thread t).stackBase)
    (hcurrent : s'.currentThread = s.currentThread) : Backed image s' run heap site := by
  obtain ⟨l, hl⟩ := h.ledger
  refine ⟨⟨l, ?_⟩, fun t ht hc => ?_⟩
  · rw [allocations_congr hstack]
    exact hl
  · rw [hcurrent] at hc
    rw [hstack t ht]
    exact h.saved t ht hc

/-! ### Release -/

/-- The frees of a reaping pass. -/
theorem freeReleased_ledger (dead : List ℕ)
    (hl : Mm.Ledger heap l (allocations s dead ++ live)) :
    ∃ l', Mm.Ledger (freeReleased heap (dead.map fun t => ⟨t, (s.thread t).stackBase⟩)) l' live ∧
      ∀ x, Mm.Within live x →
        (freeReleased heap (dead.map fun t => ⟨t, (s.thread t).stackBase⟩)).mem x = heap.mem x := by
  induction dead generalizing heap l with
  | nil => exact ⟨l, hl, fun _ _ => rfl⟩
  | cons t dead ih =>
    have hperm : (allocations s (t :: dead) ++ live).Perm
        (((s.thread t).stackBase, kernelStackSize) :: (t, threadSize) ::
          (allocations s dead ++ live)) := List.Perm.swap _ _ _
    obtain ⟨l₁, hl₁, -, hmem₁⟩ := (hl.perm hperm).release
    obtain ⟨l₂, hl₂, -, hmem₂⟩ := hl₁.release
    obtain ⟨l₃, hl₃, hmem₃⟩ := ih hl₂
    refine ⟨l₃, hl₃, fun x hx => ?_⟩
    obtain ⟨r, hr, hin⟩ := hx
    have hr' : r ∈ allocations s dead ++ live := List.mem_append_right _ hr
    refine (hmem₃ x ⟨r, hr, hin⟩).trans ((hmem₂ x ⟨r, hr', hin⟩).trans ?_)
    exact hmem₁ x ⟨r, List.mem_cons_of_mem _ hr', hin⟩

theorem allocations_perm (hn : run.Nodup) {dead : List ℕ} (hd : dead.Nodup)
    (hsub : ∀ t ∈ dead, t ∈ run) : (allocations s run).Perm
      (allocations s dead ++ allocations s (run.filter fun t => decide (t ∉ dead))) := by
  have hperm : run.Perm (dead ++ run.filter fun t => decide (t ∉ dead)) := by
    rw [List.perm_ext_iff_of_nodup hn]
    · intro t
      simp only [List.mem_append, List.mem_filter, decide_eq_true_eq]
      by_cases ht : t ∈ dead
      · simp [ht, hsub t ht]
      · simp [ht]
    · apply List.Nodup.append hd (hn.filter _)
      intro t ht ht'
      simp only [List.mem_filter, decide_eq_true_eq] at ht'
      exact ht'.2 ht
  rw [allocations, allocations, allocations, ← List.flatMap_append]
  exact hperm.flatMap_right _

theorem Backed.release (h : Backed image s run heap site) (hn : run.Nodup) {dead : List ℕ}
    (hd : dead.Nodup) (hsub : ∀ t ∈ dead, t ∈ run) :
    Backed image s (run.filter fun t => decide (t ∉ dead))
      (freeReleased heap (dead.map fun t => ⟨t, (s.thread t).stackBase⟩)) site := by
  obtain ⟨l, hl⟩ := h.ledger
  obtain ⟨l', hl', hmem⟩ := freeReleased_ledger dead (hl.perm (allocations_perm hn hd hsub))
  exact ⟨⟨l', hl'⟩, fun t ht hc => h.saved_kept (fun u hu => List.mem_of_mem_filter hu) hmem ht hc⟩

/-! ### Creation -/

/-- The two requests of `kernel_thread_create` overflow nothing. -/
theorem noWrap_threadSize (hend : heap.heapEnd + 2 ^ 16 < 2 ^ 64) :
    Mm.NoWrap heap threadSize := by
  have halign : Mm.alignUpSize threadSize Mm.heapAlignment = 128 := by decide
  have hbytes : Mm.alignUpSize (128 + Mm.headerSize) Mm.pageSize = 4096 := by decide
  refine ⟨by decide, fun _ => ?_⟩
  rw [halign, hbytes]
  exact ⟨by decide, by omega⟩

theorem noWrap_kernelStackSize (hend : heap.heapEnd + 2 ^ 15 < 2 ^ 64) :
    Mm.NoWrap heap kernelStackSize := by
  have halign : Mm.alignUpSize kernelStackSize Mm.heapAlignment = 16384 := by decide
  have hbytes : Mm.alignUpSize (16384 + Mm.headerSize) Mm.pageSize = 20480 := by decide
  refine ⟨by decide, fun _ => ?_⟩
  rw [halign, hbytes]
  exact ⟨by decide, by omega⟩

/-- What `allocThread` leaves: either nothing that was not there before, or one object and one
stack more. -/
inductive Allocated (heap : Mm.Heap) (live : List (ℕ × ℕ)) (entry : ℕ) (heap' : Mm.Heap) :
    Option ThreadPtr → ℕ → Prop
  | failed (l : List Mm.Block) : Mm.Ledger heap' l live → Allocated heap live entry heap' none 0
  | made (t stack : ℕ) (l : List Mm.Block) : entry ≠ 0 →
      Mm.Ledger heap' l ((t, threadSize) :: (stack, kernelStackSize) :: live) →
      Allocated heap live entry heap' (some t) stack

theorem allocThread_spec (hl : Mm.Ledger heap l live) (hend : heap.heapEnd + 2 ^ 16 < 2 ^ 64)
    (entry : ℕ) (pages : Bool → ℕ → Mm.PageOutcome) :
    ∃ heap' thread stack, allocThread heap entry pages = .ok (heap', thread, stack) ∧
      Allocated heap live entry heap' thread stack ∧
      ∀ x, Mm.Within live x → heap'.mem x = heap.mem x := by
  by_cases hentry : entry = 0
  · exact ⟨heap, none, 0, if_pos hentry, .failed l hl, fun _ _ => rfl⟩
  have hextend : Mm.extensionBytes (Mm.alignUpSize threadSize Mm.heapAlignment) = 4096 := by decide
  obtain ⟨h₁, t, l₁, hs₁, hl₁, hmem₁, -, hle₁⟩ := hl.malloc (noWrap_threadSize hend) (pages false)
  rw [hextend] at hle₁
  unfold allocThread
  simp only [if_neg hentry, hs₁, bind, Except.bind]
  by_cases ht : t = 0
  · rw [Mm.grant, if_pos ht] at hl₁
    exact ⟨h₁, none, 0, if_pos ht, .failed l₁ hl₁, hmem₁⟩
  rw [Mm.grant, if_neg ht] at hl₁
  obtain ⟨h₂, stack, l₂, hs₂, hl₂, hmem₂, -, -⟩ :=
    hl₁.malloc (noWrap_kernelStackSize (by omega)) (pages true)
  have hkept : ∀ x, Mm.Within live x → h₂.mem x = heap.mem x := by
    rintro x ⟨r, hr, hin⟩
    rw [hmem₂ x ⟨r, List.mem_cons_of_mem _ hr, hin⟩]
    exact hmem₁ x ⟨r, hr, hin⟩
  simp only [if_neg ht, hs₂]
  by_cases hstack : stack = 0
  · -- The object goes back to the heap.
    rw [Mm.grant, if_pos hstack] at hl₂
    obtain ⟨l₃, hl₃, -, hmem₃⟩ := hl₂.release
    refine ⟨Mm.kfree h₂ t, none, 0, if_pos hstack, .failed l₃ hl₃, fun x hx => ?_⟩
    rw [hmem₃ x hx, hkept x hx]
  · rw [Mm.grant, if_neg hstack] at hl₂
    exact ⟨h₂, some t, stack, if_neg hstack,
      .made t stack l₂ hentry (hl₂.perm (List.Perm.swap _ _ _)), hkept⟩

/-- A new object is none of the old ones. -/
theorem notMem_of_ledger
    (hl : Mm.Ledger heap' l ((t, threadSize) :: (stack, kernelStackSize) :: allocations s run)) :
    t ∉ run := by
  intro ht
  have hnodup := hl.owns.nodup
  rw [List.map_cons, List.nodup_cons] at hnodup
  apply hnodup.1
  exact List.mem_cons_of_mem _ (List.mem_map_of_mem (mem_allocations ht).1)

/-- The new thread is saved like the others. -/
theorem Backed.create (h : Backed image s run heap site)
    (hl : Mm.Ledger heap' l ((t, threadSize) :: (stack, kernelStackSize) :: allocations s run))
    (hmem : ∀ x, Mm.Within (allocations s run) x → heap'.mem x = heap.mem x)
    (hstack : ∀ u ∈ run, (s'.thread u).stackBase = (s.thread u).stackBase)
    (hnew : (s'.thread t).stackBase = stack) (hcurrent : s'.currentThread = s.currentThread) :
    Backed image s' (run ++ [t]) { heap' with mem := prepareThread image heap'.mem t stack }
      (Function.update site (some t) (image.freshSite (stackTop stack))) := by
  have hperm : ((t, threadSize) :: (stack, kernelStackSize) :: allocations s run).Perm
      (allocations s' (run ++ [t])) := by
    rw [allocations_concat, allocations_congr hstack, threadAllocations, hnew]
    show ([(t, threadSize), (stack, kernelStackSize)] ++ allocations s run).Perm _
    exact List.perm_append_comm
  have hl' := hl.perm hperm
  have hp := Housed.of_ledger hl'
  have ht : t ∈ run ++ [t] := by simp
  have hprepare : prepareThread image heap'.mem t stack =
      (liveLayout image hp).createStack image.threadTrampoline heap'.mem ⟨t, ht⟩ := by
    rw [← hnew]
    rfl
  have hsite : image.freshSite (stackTop stack) =
      (liveLayout image hp).freshSite image.threadTrampoline ⟨t, ht⟩ := by
    rw [← hnew]
    rfl
  refine ⟨⟨l, hl'.withMem fun x _ _ hout => ?_⟩, fun u hu hc => ?_⟩
  · -- The frame and the stack pointer lie in the memory of the new thread.
    obtain ⟨-, -, houtside⟩ := Arch.prepareInitialStack_spec (liveLayout image hp)
      image.threadTrampoline heap'.mem ⟨t, ht⟩
    have hbase : ((liveLayout image hp).stackBase (some ⟨t, ht⟩)).toNat = (s'.thread t).stackBase :=
      stackBase_toNat hp ht
    have hslot : ((liveLayout image hp).slot (some ⟨t, ht⟩)).toNat = t + stackPointerOffset :=
      slot_toNat image hp ht
    rw [hbase] at houtside
    rw [hprepare, Arch.Layout.createStack, storeWord_of_outside, houtside]
    · by_contra hin
      rw [not_or, not_lt, not_le] at hin
      exact hout (within_stack ht hin.1 hin.2)
    · by_contra hin
      rw [hslot, not_or, not_lt, not_le] at hin
      simp only [stackPointerOffset] at hin
      apply hout (within_object ht (by omega) _)
      simp only [threadSize]
      omega
  · simp only
    rw [hprepare]
    by_cases hut : u = t
    · subst hut
      rw [Function.update_self, hsite, ← hp.parked_iff ht]
      exact Arch.Parked.created _ _ _ _
    · have hur : u ∈ run := by simpa [hut] using hu
      rw [Function.update_of_ne (by simpa using hut), ← hp.parked_iff hu]
      apply Arch.Parked.creation
      · rw [hp.parked_iff hu, hstack u hur]
        rw [hcurrent] at hc
        exact h.saved_kept (fun _ hu => hu) hmem hur hc
      · simpa using hut

/-! ### Switching and running -/

/-- Memory that changes only in the allocations of the threads, and in none that is saved. -/
theorem Backed.withMem (h : Backed image s run heap site)
    (hmem : ∀ x, Mm.heapBase ≤ x → x < heap.heapEnd → ¬ Mm.Within (allocations s run) x →
      mem' x = heap.mem x)
    (hsaved : ∀ t ∈ run, s.currentThread ≠ some t → ∀ x,
      ((s.thread t).stackBase ≤ x ∧ x < (s.thread t).stackBase + kernelStackSize ∨
        t + stackPointerOffset ≤ x ∧ x < t + stackPointerOffset + 8) → mem' x = heap.mem x) :
    Backed image s run { heap with mem := mem' } site := by
  obtain ⟨l, hl⟩ := h.ledger
  have hp := Housed.of_ledger hl
  refine ⟨⟨l, hl.withMem hmem⟩, fun t ht hc => ?_⟩
  apply hp.saved_congr ht (h.saved t ht hc)
  · intro x hlow hhigh
    exact hsaved t ht hc x (.inl ⟨hlow, hhigh⟩)
  · intro x hlow hhigh
    exact hsaved t ht hc x (.inr ⟨hlow, hhigh⟩)

/-- A switch to a saved thread resumes it and saves the caller. -/
theorem Backed.switch (h : Backed image s run heap site) {m : Processor} (hm : m.mem = heap.mem)
    (hc : ∀ c, s.currentThread = some c → c ∈ run) (ht : t ∈ run)
    (hne : s.currentThread ≠ some t)
    (hlow : (image.stackOf s s.currentThread).1 + 56 ≤ m.rsp.toNat)
    (hhigh : m.rsp.toNat ≤
      (image.stackOf s s.currentThread).1 + (image.stackOf s s.currentThread).2)
    (hstack : ∀ u ∈ run, (s'.thread u).stackBase = (s.thread u).stackBase) (returnAddress : Word) :
    let cpu := Arch.callContextSwitch m (image.slot s.currentThread)
      (loadWord heap.mem (image.slot (some t))) returnAddress
    (site (some t)).Resumed cpu ∧
      Backed image s' run { heap with mem := cpu.mem }
        (Function.update site s.currentThread ⟨m.reg, m.rsp, returnAddress⟩) := by
  obtain ⟨l, hl⟩ := h.ledger
  have hp := Housed.of_ledger hl
  obtain ⟨p, hcur⟩ : ∃ p : Option {t // t ∈ run}, s.currentThread = p.map Subtype.val := by
    cases hcur : s.currentThread with
    | none => exact ⟨none, rfl⟩
    | some c => exact ⟨some ⟨c, hc c hcur⟩, rfl⟩
  have hbounds : (((liveLayout image hp).stackBase p).toNat, (liveLayout image hp).stackSize p) =
      image.stackOf s s.currentThread := by
    rw [hcur]
    cases p with
    | none => rfl
    | some c => exact congrArg (·, kernelStackSize) (stackBase_toNat hp c.2)
  have hslot : image.slot s.currentThread = (liveLayout image hp).slot p := by
    rw [hcur]
    rfl
  rw [← hbounds] at hlow hhigh
  -- The frame of the next thread is not where the frame of the caller goes.
  have hother (u : ℕ) (hu : u ∈ run) (hsaved : Saved image heap.mem u (s.thread u).stackBase
      (site (some u))) (hup : s.currentThread ≠ some u) :
      Arch.Parked (liveLayout image hp) (m.savedMem ((liveLayout image hp).slot p) returnAddress)
        (some ⟨u, hu⟩) (site (some u)) := by
    rw [← hp.parked_iff hu, ← hm] at hsaved
    apply hsaved.other _ hlow hhigh
    rintro rfl
    exact hup hcur
  have hnext := hother t ht (h.saved t ht hne) hne
  obtain ⟨hresumed, hmem⟩ := Arch.callContextSwitch_resumes hnext.frame
  simp only
  rw [(h.saved t ht hne).pointer, hslot]
  refine ⟨hresumed, ⟨l, ?_⟩, fun u hu _ => ?_⟩
  · rw [allocations_congr hstack, hmem]
    apply hl.withMem
    intro x hbase hend hout
    rw [← hm]
    apply Arch.savedMem_outside (by omega)
    · by_contra hin
      rw [not_or, not_lt, not_le] at hin
      cases p with
      | none =>
        have hboot := image.stack_low
        change m.rsp.toNat ≤ image.kernelStack.toNat + bootStackSize at hhigh
        omega
      | some c =>
        have hstart := congrArg Prod.fst hbounds
        have hsize : (liveLayout image hp).stackSize (some c) = kernelStackSize := rfl
        rw [hcur] at hstart
        simp only [Option.map_some, Image.stackOf] at hstart
        rw [hstart] at hlow hhigh
        exact hout (within_stack c.2 (by omega) (by omega))
    · by_contra hin
      rw [not_or, not_lt, not_le] at hin
      cases p with
      | none =>
        have hboot := image.slot_low
        change image.bootStackPointer.toNat ≤ x ∧ x < image.bootStackPointer.toNat + 8 at hin
        omega
      | some c =>
        rw [show ((liveLayout image hp).slot (some c)).toNat = c.1 + stackPointerOffset from
          slot_toNat image hp c.2] at hin
        simp only [stackPointerOffset] at hin
        apply hout (within_object c.2 (by omega) _)
        simp only [threadSize]
        omega
  · simp only
    rw [hstack u hu, ← hp.parked_iff hu, hmem]
    by_cases hup : s.currentThread = some u
    · obtain rfl : p = some ⟨u, hu⟩ := by
        apply Option.map_injective Subtype.val_injective
        exact hcur.symm.trans hup
      rw [hup, Function.update_self]
      exact .caller hlow hhigh
    · rw [Function.update_of_ne (Ne.symm hup)]
      exact hother u hu (h.saved u hu hup) hup

end

/-! ### Runs -/

/-- Only `kernel_thread_create` creates threads. -/
theorem threadStep_threads {k k' : Kernel} {pc : Pc} {call : Call} {cond : Bool} {control : Control}
    (hcall : ∀ entry thread stack, call ≠ .create entry thread stack)
    (hs : threadStep k pc call cond = .ok (k', control)) : control.threads = [] := by
  by_cases hentry : pc = .entry
  · subst hentry
    cases beginCall_cases hs with
    | stays hstays => exact hstays.threads
    | queueSleep q _ hlock =>
      obtain ⟨_, -, hpair⟩ := map_ok (withLock_body hlock)
      cases hpair
      rfl
    | wake | exit => rfl
    | create entry thread stack => exact absurd rfl (hcall entry thread stack)
  · exact (threadStep_cases hentry hs).1.threads

theorem spawned_eq_nil {σ : System} {act : Action}
    (hact : ∀ entry thread stack cond, act ≠ .thread (.create entry thread stack) cond) :
    σ.spawned act = [] := by
  cases act with
  | tick | wake | irqExit => rfl
  | thread call cond =>
    have hcall : ∀ entry thread stack, call ≠ .create entry thread stack := by
      rintro entry thread stack rfl
      exact hact entry thread stack cond rfl
    simp only [System.spawned]
    split
    next => rfl
    next =>
      split
      next hs => exact threadStep_threads hcall hs
      next => rfl

theorem admissible_of_not_create {σ : System} {act : Action}
    (hact : ∀ entry thread stack cond, act ≠ .thread (.create entry thread stack) cond) :
    Sched.Admissible σ act := by
  cases act with
  | tick | wake | irqExit => trivial
  | thread call cond =>
    cases call with
    | create entry thread stack => exact absurd rfl (hact entry thread stack cond)
    | _ => trivial

/-- The thread that `kernel_thread_create` puts on the run queue, if it has memory for one. -/
theorem kernelThreadCreate_eq {k : Kernel} (hf : k.locks.Free) {entry stack : ℕ}
    {thread : Option ThreadPtr} (hmade : thread ≠ none → entry ≠ 0 ∧ stack ≠ 0) :
    ∃ s, kernelThreadCreate k entry thread stack = .ok (⟨s, k.locks⟩, thread) ∧
      s.currentThread = k.sched.currentThread ∧
      ∀ u, (s.thread u).stackBase =
        if thread = some u then stack else (k.sched.thread u).stackBase := by
  unfold kernelThreadCreate
  cases thread with
  | none => exact ⟨k.sched, ite_self _, rfl, fun u => by simp⟩
  | some t =>
    obtain ⟨hentry, hstack⟩ := hmade (by simp)
    simp only [if_neg hentry, if_neg hstack, withLock_eq (hf.locked .scheduler)]
    refine ⟨_, rfl, ?_, fun u => ?_⟩
    · have hskel := congrArg Scheduler.currentThread
        (enqueueInit_skeleton (s := k.sched) (t := t) entry stack)
      exact hskel
    · rw [enqueueInit_stackBase]
      simp only [Option.some.injEq, eq_comm]

theorem create_step {τ : Traced} {a : Shape} (entry stack : ℕ) (thread : Option ThreadPtr)
    (h : Lockstep τ a) (hhalted : τ.sys.halted = false) (hpoint : τ.sys.point = .entry)
    (hmade : thread ≠ none → entry ≠ 0 ∧ stack ≠ 0) (hfresh : ∀ t, thread = some t → t ∉ a.run) :
    ∃ τ' a', Sched.Admissible τ.sys (.thread (.create entry thread stack) false) ∧
      τ.step (.thread (.create entry thread stack) false) = .ok τ' ∧ Lockstep τ' a' ∧
      a'.run = a.run ++ thread.toList ∧
      τ'.sys.kernel.sched.currentThread = τ.sys.kernel.sched.currentThread ∧
      ∀ u, (τ'.sys.kernel.sched.thread u).stackBase =
        if thread = some u then stack else (τ.sys.kernel.sched.thread u).stackBase := by
  obtain ⟨s, hcreate, hcurrent, hstack⟩ := kernelThreadCreate_eq h.inv.base.free hmade
  have hstep : threadStep τ.sys.kernel τ.sys.point (.create entry thread stack) false =
      .ok (⟨s, τ.sys.kernel.locks⟩, .spawned thread) := by
    rw [hpoint]
    simp only [threadStep, beginCall, hcreate, bind, Except.bind]
    rfl
  have hs : ∃ τ', τ.step (.thread (.create entry thread stack) false) = .ok τ' ∧
      τ'.sys.kernel.sched = s := by
    unfold Traced.step
    simp only [System.step, hhalted, Bool.false_eq_true, ↓reduceIte, hstep, Except.bind]
    exact ⟨_, rfl, rfl⟩
  obtain ⟨τ', hs, rfl⟩ := hs
  have hadm : Sched.Admissible τ.sys (.thread (.create entry thread stack) false) := by
    cases thread with
    | none => trivial
    | some t =>
      have hnot := hfresh t rfl
      rw [← h.inv.base.wf.rep.allocated t] at hnot
      exact Bool.eq_false_of_not_eq_true hnot
  obtain ⟨a', hl', hcase⟩ := h.step hadm hs
  refine ⟨τ', a', hadm, hs, hl', ?_, hcurrent, hstack⟩
  have hspawned : τ.sys.spawned (.thread (.create entry thread stack) false) = thread.toList := by
    simp only [System.spawned, hhalted, Bool.false_eq_true, ↓reduceIte, hstep]
    cases thread <;> rfl
  have hreleased : τ.sys.released (.thread (.create entry thread stack) false) = [] := by
    simp only [System.released, hhalted, Bool.false_eq_true, ↓reduceIte, hstep]
  rw [hcase.run, hspawned, hreleased]
  simp

/-- What the allocations of a creation were, given their result. -/
theorem allocThread_ok {heap heap' : Mm.Heap} {l : List Mm.Block} {live : List (ℕ × ℕ)}
    {entry stack : ℕ} {pages : Bool → ℕ → Mm.PageOutcome} {thread : Option ThreadPtr}
    (hl : Mm.Ledger heap l live) (hend : heap.heapEnd + 2 ^ 16 < 2 ^ 64)
    (hs : allocThread heap entry pages = .ok (heap', thread, stack)) :
    Allocated heap live entry heap' thread stack ∧
      ∀ x, Mm.Within live x → heap'.mem x = heap.mem x := by
  obtain ⟨heap₁, thread₁, stack₁, hs₁, hspec⟩ := allocThread_spec hl hend entry pages
  obtain ⟨rfl, hpair⟩ := Prod.mk.inj (Except.ok.inj (hs₁.symm.trans hs))
  obtain ⟨rfl, rfl⟩ := Prod.mk.inj hpair
  exact hspec

theorem Prepared.backed {image : Image} {s : Scheduler} {hist : History} {heap : Mm.Heap}
    {site : Option ℕ → CallSite} (h : Prepared image s hist heap site) :
    Created s hist ∧ s.currentThread = none ∧ Backed image s hist.alive heap site := by
  induction h with
  | init hinit =>
    obtain ⟨l, hl, -⟩ := Mm.heapInit_ledger hinit
    exact ⟨.init, rfl, ⟨l, hl⟩, fun t ht => absurd ht (by simp [History.alive, History.empty])⟩
  | @create s hist heap heap' site entry pages t stack _ hend hs ih =>
    obtain ⟨hcreated, hcur, hb⟩ := ih
    obtain ⟨l, hl⟩ := hb.ledger
    obtain ⟨hallocated, hmem⟩ := allocThread_ok hl hend hs
    have hbegun := hcreated.begun
    cases hallocated with
    | made _ _ l' hentry hl' =>
      have hne : stack ≠ 0 := hl'.ne_zero (List.mem_cons_of_mem _ List.mem_cons_self)
      have hfresh := notMem_of_ledger hl'
      have hfree : s.allocated t = false := by
        rw [← hbegun.booted.rep.allocated t] at hfresh
        exact Bool.eq_false_of_not_eq_true hfresh
      have hskel := congrArg Scheduler.currentThread
        (enqueueInit_skeleton (s := s) (t := t) entry stack)
      have hcurrent : (enqueueThread (initThread s t entry stack) t).currentThread =
          s.currentThread := hskel
      refine ⟨.create hcreated hfree hne, hcurrent.trans hcur, ?_⟩
      rw [History.alive_create hbegun.freed]
      apply hb.create hl' hmem _ _ hcurrent
      · intro u hu
        rw [enqueueInit_stackBase, if_neg]
        rintro rfl
        exact hfresh hu
      · rw [enqueueInit_stackBase, if_pos rfl]
  | fail _ hend hs ih =>
    obtain ⟨hcreated, hcur, hb⟩ := ih
    obtain ⟨l, hl⟩ := hb.ledger
    obtain ⟨hallocated, hmem⟩ := allocThread_ok hl hend hs
    cases hallocated with
    | failed l' hl' =>
      exact ⟨hcreated, hcur, ⟨l', hl'⟩,
        fun t ht hc => hb.saved_kept (fun _ hu => hu) hmem ht hc⟩

namespace ThreadMachine

structure Inv (image : Image) (m : ThreadMachine) (a : Shape) : Prop where
  lockstep : Lockstep m.threads a
  backed : Backed image m.sched a.run m.heap m.site

section
variable {image : Image} {m m' : ThreadMachine} {a : Shape} {act : Action}

theorem switch_same {prev : Option ThreadPtr} (h : m.sched.currentThread = prev) :
    m.switch image prev = m := by
  subst h
  unfold switch
  cases hc : m.sched.currentThread with
  | none => rfl
  | some c => exact if_pos rfl

theorem switch_other {s : Scheduler} {run : List ℕ} {t : ℕ} (h : Backed image s run m.heap m.site)
    (hc : ∀ c, s.currentThread = some c → c ∈ run) (ht : t ∈ run) (hne : s.currentThread ≠ some t)
    (hcurrent : m.sched.currentThread = some t)
    (hstack : ∀ u ∈ run, (m.sched.thread u).stackBase = (s.thread u).stackBase)
    (hlow : (image.stackOf s s.currentThread).1 + 56 ≤ m.rsp.toNat)
    (hhigh : m.rsp.toNat ≤
      (image.stackOf s s.currentThread).1 + (image.stackOf s s.currentThread).2) :
    let m' := m.switch image s.currentThread
    m'.threads = m.threads ∧ (m.site (some t)).Resumed m'.cpu ∧
      Backed image m.sched run m'.heap m'.site ∧ m'.site = Function.update m.site s.currentThread
        ⟨m.reg, m.rsp, image.returnAddress s.currentThread⟩ := by
  obtain ⟨hresumed, hbacked⟩ := h.switch (m := m.cpu) rfl hc ht hne hlow hhigh hstack
    (image.returnAddress s.currentThread)
  unfold switch
  rw [hcurrent]
  simp only [if_neg hne]
  generalize Arch.callContextSwitch m.cpu _ _ _ = cpu at hresumed hbacked
  exact ⟨rfl, hresumed, hbacked, trivial⟩

/-- A step of the scheduler frees what it reaps and resumes the thread that it switches to. -/
theorem Inv.sched (h : m.Inv image a) (ha : m.Admissible image (.sched act))
    (hs : m.step image (.sched act) = .ok m') : (∃ a', m'.Inv image a') ∧
      (m'.sched.currentThread = m.sched.currentThread →
        m'.reg = m.reg ∧ m'.rsp = m.rsp ∧ m'.rip = m.rip ∧ m'.site = m.site) ∧
      ∀ t, m'.sched.currentThread = some t → m.sched.currentThread ≠ some t →
        (m.site (some t)).Resumed m'.cpu ∧ m'.site = Function.update m.site m.sched.currentThread
          ⟨m.reg, m.rsp, image.returnAddress m.sched.currentThread⟩ := by
  obtain ⟨hact, hroom⟩ := ha
  obtain ⟨τ, hτ, hm⟩ := bind_ok hs
  replace hτ := mapError_ok hτ
  have hadm := admissible_of_not_create (σ := m.threads.sys) hact
  obtain ⟨a', hl, hcase⟩ := h.lockstep.step hadm hτ
  have hinv := h.lockstep.inv
  have hrep := hinv.base.wf.rep
  obtain ⟨dead, hdn, hdead, hgone⟩ := hcase.dead hrep.nodup
  have hnone := spawned_eq_nil (σ := m.threads.sys) hact
  have hstack : ∀ u, (τ.sys.kernel.sched.thread u).stackBase = (m.sched.thread u).stackBase := by
    intro u
    exact hcase.stack hinv hadm (by simp [hnone])
  have hrun : a'.run = a.run.filter fun t => decide (t ∉ dead) := by
    rw [hcase.run, hnone, hgone]
    simp [Function.comp_def]
  -- The reaped threads are gone from the heap, and the others are as they were.
  have hbacked := h.backed.release hrep.nodup hdn fun t ht => (hdead t ht).1
  rw [← hrun] at hbacked
  have hcur : ∀ c, m.sched.currentThread = some c → c ∈ a'.run := by
    intro c hc
    rw [hrun]
    refine List.mem_filter.mpr ⟨hinv.base.wf.current c hc, decide_eq_true fun hcd => ?_⟩
    exact (reapable_iff.mp (hdead c hcd).2).2 hc.symm
  obtain rfl := Except.ok.inj hm
  rw [show m.threads.sys.released act = dead.map fun t => ⟨t, (m.sched.thread t).stackBase⟩ from
    hgone]
  by_cases hsame : τ.sys.kernel.sched.currentThread = m.sched.currentThread
  · rw [switch_same (m := { m with threads := τ, heap := freeReleased m.heap _ }) hsame]
    refine ⟨⟨a', hl, hbacked.withSched (fun t _ => hstack t) hsame⟩,
      fun _ => ⟨rfl, rfl, rfl, rfl⟩, fun t ht hne => ?_⟩
    exact absurd (hsame.symm.trans ht) hne
  · have hyields : m.threads.sys.Yields act := by
      by_contra hnot
      exact hsame ((hcase.switching hinv hadm).2 hnot)
    obtain ⟨hlow, hhigh⟩ := hroom hyields
    obtain ⟨t, ht⟩ := (hcase.of_yields hyields).2.2.2.current hsame
    have hne : m.sched.currentThread ≠ some t := fun hc => hsame (ht.trans hc.symm)
    have htm : t ∈ a'.run := hl.inv.base.wf.current t ht
    obtain ⟨hthreads, hresumed, hbacked', hsite⟩ := switch_other (s := m.sched)
      (m := { m with threads := τ, heap := freeReleased m.heap _ }) hbacked hcur htm hne ht
      (fun u _ => hstack u) hlow hhigh
    simp only at hthreads hresumed hbacked' hsite ⊢
    generalize switch image _ m.sched.currentThread = m' at hthreads hresumed hbacked' hsite ⊢
    have hsched : m'.sched = τ.sys.kernel.sched := by rw [ThreadMachine.sched, hthreads]
    refine ⟨⟨a', hthreads ▸ hl, hsched ▸ hbacked'⟩, fun hc => ?_, fun u hu _ => ?_⟩
    · exact absurd ((congrArg Scheduler.currentThread hsched).symm.trans hc) hsame
    · obtain rfl : t = u := Option.some.inj
        (ht.symm.trans ((congrArg Scheduler.currentThread hsched).symm.trans hu))
      exact ⟨hresumed, hsite⟩

/-- A creation returns, whether or not there is memory. -/
theorem Inv.create {entry : ℕ} {pages : Bool → ℕ → Mm.PageOutcome} (h : m.Inv image a)
    (ha : m.Admissible image (.create entry pages)) :
    ∃ m' a' act, m.step image (.create entry pages) = .ok m' ∧ m'.Inv image a' ∧
      Sched.Admissible m.threads.sys act ∧ m.threads.step act = .ok m'.threads := by
  obtain ⟨hhalted, hpoint, hend⟩ := ha
  obtain ⟨l, hl⟩ := h.backed.ledger
  obtain ⟨heap', thread, stack, hs, hallocated, hmem⟩ := allocThread_spec hl hend entry pages
  unfold step
  simp only [hs, Except.mapError, bind, Except.bind]
  cases hallocated with
  | failed l' hl' =>
    obtain ⟨τ', a', hadm, hτ, hlock, hrun, hcurrent, hstack⟩ :=
      create_step entry 0 none h.lockstep hhalted hpoint (by simp) (by simp)
    rw [Option.toList_none, List.append_nil] at hrun
    have hkept : Backed image m.sched a.run heap' m.site :=
      ⟨⟨l', hl'⟩, fun t ht hc => h.backed.saved_kept (fun _ hu => hu) hmem ht hc⟩
    refine ⟨{ m with threads := τ', heap := heap' }, a', _, by rw [hτ]; rfl, ⟨hlock, ?_⟩, hadm, hτ⟩
    rw [hrun]
    exact hkept.withSched (fun t _ => hstack t) hcurrent
  | made t stack l' hentry hl' =>
    have hne : stack ≠ 0 := hl'.ne_zero (List.mem_cons_of_mem _ List.mem_cons_self)
    have hfresh : t ∉ a.run := notMem_of_ledger hl'
    obtain ⟨τ', a', hadm, hτ, hlock, hrun, hcurrent, hstack⟩ := create_step entry stack (some t)
      h.lockstep hhalted hpoint (fun _ => ⟨hentry, hne⟩) (fun u hu => by simp_all)
    have hold : ∀ u ∈ a.run, (τ'.sys.kernel.sched.thread u).stackBase =
        (m.sched.thread u).stackBase := by
      intro u hu
      rw [hstack u, if_neg]
      · rfl
      · rintro ⟨⟩
        exact hfresh hu
    have hnew : (τ'.sys.kernel.sched.thread t).stackBase = stack := by rw [hstack t, if_pos rfl]
    refine ⟨{ m with
      threads := τ'
      heap := { heap' with mem := prepareThread image heap'.mem t stack }
      site := Function.update m.site (some t) (image.freshSite (stackTop stack)) }, a', _,
      by rw [hτ]; rfl, ⟨hlock, ?_⟩, hadm, hτ⟩
    rw [hrun]
    exact h.backed.create hl' hmem hold hnew hcurrent

/-- Code of the running context. -/
theorem Inv.run {reg : Reg → Word} {rsp rip : Word} {mem : Mem} (h : m.Inv image a)
    (ha : m.Admissible image (.run reg rsp rip mem)) :
    (m.withCpu ⟨reg, rsp, rip, mem⟩).Inv image a := by
  refine ⟨h.lockstep, h.backed.withMem ?_ ?_⟩
  · intro x hlow hhigh hout
    apply ha x hlow hhigh
    rintro (⟨c, hc, hin⟩ | ⟨t, ht, hin⟩)
    · exact hout (within_stack (h.lockstep.inv.base.wf.current c hc) hin.1 hin.2)
    · rw [h.lockstep.alive] at ht
      exact hout (within_object ht hin.1 hin.2.1)
  · intro t ht hc x hx
    obtain ⟨l, hl⟩ := h.backed.ledger
    have hp := Housed.of_ledger hl
    have hobject := hl.inside (mem_allocations ht).1
    have hstack := hl.inside (mem_allocations ht).2
    apply ha x
    · simp only [threadSize, stackPointerOffset, kernelStackSize] at hobject hstack hx
      omega
    · simp only [threadSize, stackPointerOffset, kernelStackSize] at hobject hstack hx
      omega
    · rintro (⟨c, hcur, hin⟩ | ⟨u, hu, hin⟩)
      · -- The stack of the running thread is another one.
        have hcm := h.lockstep.inv.base.wf.current c hcur
        have hne : c ≠ t := by
          rintro rfl
          exact hc hcur
        have hstacks := hp.stacksApart c hcm t ht hne
        have hslot := hp.objectStackApart t ht c hcm
        simp only [Apart, threadSize, stackPointerOffset, kernelStackSize] at *
        omega
      · rw [h.lockstep.alive] at hu
        have hslot := hp.objectStackApart u hu t ht
        by_cases hut : u = t
        · subst hut
          simp only [Apart, threadSize, stackPointerOffset, kernelStackSize] at *
          omega
        · have hobjects := hp.objectsApart u hu t ht hut
          simp only [Apart, threadSize, stackPointerOffset, kernelStackSize] at *
          omega

theorem Initial.inv (h : m.Initial image) :
    Traced.Initial m.threads ∧ m.Inv image ⟨m.threads.hist.alive, fun _ => []⟩ := by
  obtain ⟨s, i, n, hprepared, him, hs⟩ := h.prepared
  obtain ⟨hcreated, hcur, hb⟩ := hprepared.backed
  have hinit : Traced.Initial m.threads := ⟨⟨s, i, n, hcreated, him, hs⟩, h.entry, h.free⟩
  refine ⟨hinit, hinit.lockstep, ?_⟩
  rw [hs]
  exact hb.withSched (fun _ _ => rfl) rfl

theorem switch_threads (m : ThreadMachine) (prev : Option ThreadPtr) :
    (m.switch image prev).threads = m.threads := by
  unfold switch
  split
  · rfl
  · split
    · rfl
    · rfl

/-- How a step can fail: in a panic of the scheduler. -/
def Panics (image : Image) (m : ThreadMachine) (act : ThreadMachineAction) : Prop :=
  ∃ p ∈ [Panic.invalidThreadStateTransition, .exitWithoutCurrent, .wakeupNonWaiting],
    m.step image act = .error (.sched (.panic p))

/-- What one step does. The threads take a step of the scheduler alone, or none. -/
theorem Inv.step {act : ThreadMachineAction} (h : m.Inv image a) (ha : m.Admissible image act) :
    (∃ m', m.step image act = .ok m') ∧ (∀ m', m.step image act = .ok m' →
      (∃ a', m'.Inv image a') ∧ (m'.threads = m.threads ∨ ∃ sact,
        Sched.Admissible m.threads.sys sact ∧ m.threads.step sact = .ok m'.threads)) ∨
      m.Panics image act := by
  cases act with
  | sched act =>
    have hadm := admissible_of_not_create (σ := m.threads.sys) ha.1
    cases hτ : m.threads.step act with
    | error e =>
      right
      have hs : m.step image (.sched act) = .error (.sched e) := by
        simp only [ThreadMachine.step, hτ, Except.mapError, bind, Except.bind]
      rcases h.lockstep.step_error hadm hτ with rfl | rfl | rfl
      · exact ⟨_, by simp, hs⟩
      · exact ⟨_, by simp, hs⟩
      · exact ⟨_, by simp, hs⟩
    | ok τ =>
      left
      have hs : m.step image (.sched act) = .ok ({ m with
          threads := τ
          heap := freeReleased m.heap (m.threads.sys.released act) }.switch image
            m.sched.currentThread) := by
        simp only [ThreadMachine.step, hτ, Except.mapError, bind, Except.bind]
        rfl
      refine ⟨⟨_, hs⟩, fun m' hs' => ⟨(h.sched ha hs').1, .inr ⟨act, hadm, ?_⟩⟩⟩
      obtain rfl := Except.ok.inj (hs.symm.trans hs')
      rw [switch_threads, hτ]
  | create entry pages =>
    left
    obtain ⟨m₁, a₁, act, hs, hinv, hadm, hτ⟩ := h.create ha
    refine ⟨⟨m₁, hs⟩, fun m' hs' => ?_⟩
    obtain rfl := Except.ok.inj (hs.symm.trans hs')
    exact ⟨⟨a₁, hinv⟩, .inr ⟨act, hadm, hτ⟩⟩
  | run reg rsp rip mem =>
    left
    refine ⟨⟨_, rfl⟩, fun m' hs' => ?_⟩
    obtain rfl := Except.ok.inj hs'
    exact ⟨⟨a, h.run ha⟩, .inl rfl⟩

theorem Reachable.inv (h : m.Reachable image) :
    Traced.Reachable m.threads ∧ ∃ a, m.Inv image a := by
  apply Reach.invariant (I := fun m => Traced.Reachable m.threads ∧ ∃ a, m.Inv image a) h
  · intro m hm
    obtain ⟨hinit, hinv⟩ := hm.inv
    exact ⟨.start hinit, _, hinv⟩
  · rintro m act m' ⟨hreach, a, hinv⟩ ha hs
    rcases hinv.step ha with ⟨-, hok⟩ | ⟨p, -, herror⟩
    · obtain ⟨hinv', hthreads⟩ := hok m' hs
      refine ⟨?_, hinv'⟩
      rcases hthreads with heq | ⟨sact, hadm, hτ⟩
      · rw [heq]
        exact hreach
      · exact .next hreach hadm hτ
    · rw [herror] at hs
      cases hs

end

end ThreadMachine

/-- An image linked at two megabytes. -/
def exampleImage : Image where
  threadTrampoline := 0x200100
  kernelStack := 0x210000
  bootStackPointer := 0x220000
  returnToBoot := 0x200200
  returnToThread := 0x200300
  stack_low := by decide
  slot_low := by decide
  apart := .inr (by decide)

/-- Where the first thread object and the first stack come to lie. -/
def exampleThread : ThreadPtr := Mm.heapBase + 32
def exampleStack : ℕ := Mm.heapBase + 192

/-- Boot with an idle thread, up to the call of `sched_start`. -/
def exampleThreads : Traced :=
  let s := enqueueThread (initThread bootScheduler exampleThread 1 exampleStack) exampleThread
  ⟨⟨⟨{ s with idleThread := some exampleThread, tickCount := 0 }, bootLocks⟩, fun _ => .entry⟩,
    History.empty.create exampleThread exampleStack⟩

def exampleBoot (heap : Mm.Heap) (site : Option ThreadPtr → CallSite) : ThreadMachine where
  threads := exampleThreads
  heap := heap
  reg _ := 0
  rsp := 0x214000
  rip := 0x200150
  site := site

theorem exampleBoot_reachable : ∃ heap site,
    (exampleBoot heap site).Reachable exampleImage ∧
      site (some exampleThread) = exampleImage.freshSite (stackTop exampleStack) := by
  let zero : Mm.PageOutcome := ⟨Mm.pageSize, 0, fun _ => 0⟩
  let start : Except Mm.Stop Mm.Heap := Mm.heapInit (Mm.bootHeap fun _ => 0) fun _ _ => zero
  have hboot : start.map Mm.Heap.heapEnd = .ok (Mm.heapBase + Mm.pageSize) := by decide +kernel
  have hrun : (start.bind fun h => allocThread h 1 fun _ _ => zero).map Prod.snd =
      .ok (some exampleThread, exampleStack) := by decide +kernel
  obtain ⟨h, hh, hend⟩ := map_ok hboot
  obtain ⟨⟨h', t, stack⟩, hbind, heq⟩ := map_ok hrun
  obtain ⟨rfl, rfl⟩ := Prod.mk.inj heq
  have halloc : allocThread h 1 (fun _ _ => zero) =
      .ok (h', some exampleThread, exampleStack) := by
    rw [hh] at hbind
    exact hbind
  let site : Option ThreadPtr → CallSite := fun _ => ⟨fun _ => 0, 0, 0⟩
  have hlow : h.heapEnd + 2 ^ 16 < 2 ^ 64 := by
    rw [hend]
    decide
  have hinit : Prepared exampleImage bootScheduler .empty h site := .init hh
  have hprepared := hinit.create hlow halloc
  have halive : exampleThread ∈ exampleThreads.hist.alive := by decide
  refine ⟨_, Function.update site (some exampleThread) _,
    .start ⟨⟨_, exampleThread, 0, hprepared, halive, rfl⟩, ?_, ?_⟩, Function.update_self ..⟩
  · intro t _
    rfl
  · exact ⟨fun _ => rfl, rfl⟩

/-- In every run with threads on the heap in which `kernel_thread_create` and `sched_yield` are not
interrupted, the threads behave as the scheduler alone, the blocks in use are the objects and stacks
of the live threads, two for each, and these lie apart in the heap; and a step fails at most in one
of three panics of the scheduler. -/
theorem threads_own_heap {image : Image} {m : ThreadMachine} (h : m.Reachable image) :
    Traced.Reachable m.threads ∧ Housed m.sched m.threads.hist.alive ∧
      (∃ l, Mm.Ledger m.heap l (allocations m.sched m.threads.hist.alive) ∧
        (Mm.usedBlocks l).length = 2 * m.threads.hist.alive.length) ∧
      ∀ act, m.Admissible image act → (∃ m', m.step image act = .ok m') ∨ m.Panics image act := by
  obtain ⟨hreach, a, hinv⟩ := h.inv
  have halive := hinv.lockstep.alive
  obtain ⟨l, hl⟩ := hinv.backed.ledger
  rw [← halive] at hl
  refine ⟨hreach, Housed.of_ledger hl, ⟨l, hl, ?_⟩, fun act ha => ?_⟩
  · have hlen := hl.used_perm.length_eq
    rw [List.length_map, List.length_map] at hlen
    rw [hlen, allocations]
    simp [List.length_flatMap, threadAllocations, Nat.mul_comm]
  · rcases hinv.step ha with hok | hpanics
    · exact .inl hok.1
    · exact .inr hpanics

theorem threads_own_heap_boot : ∃ m : ThreadMachine, m.Reachable exampleImage ∧
    ∃ l, Mm.Ledger m.heap l [(exampleThread, threadSize), (exampleStack, kernelStackSize)] ∧
      (Mm.usedBlocks l).length = 2 := by
  obtain ⟨heap, site, hm, -⟩ := exampleBoot_reachable
  obtain ⟨-, -, ⟨l, hl, hlen⟩, -⟩ := threads_own_heap hm
  have halloc : allocations exampleThreads.sys.kernel.sched exampleThreads.hist.alive =
    [(exampleThread, threadSize), (exampleStack, kernelStackSize)] := by decide
  exact ⟨_, hm, l, halloc ▸ hl, hlen⟩

/-- In every run with threads on the heap in which `kernel_thread_create` and `sched_yield` are not
interrupted, a step that does not switch leaves the registers as they were; one that switches
resumes the next thread where it left off, with the stack pointer and the callee-saved registers of
that time, and records where the caller is to go on. -/
theorem contexts_survive {image : Image} {m m' : ThreadMachine} {act : Action}
    (h : m.Reachable image) (ha : m.Admissible image (.sched act))
    (hs : m.step image (.sched act) = .ok m') :
    (m'.sched.currentThread = m.sched.currentThread →
      m'.reg = m.reg ∧ m'.rsp = m.rsp ∧ m'.rip = m.rip ∧ m'.site = m.site) ∧
    ∀ t, m'.sched.currentThread = some t → m.sched.currentThread ≠ some t →
      (m.site (some t)).Resumed m'.cpu ∧ m'.site = Function.update m.site m.sched.currentThread
        ⟨m.reg, m.rsp, image.returnAddress m.sched.currentThread⟩ := by
  obtain ⟨-, a, hinv⟩ := h.inv
  exact (hinv.sched ha hs).2

/-- The first thread starts in the trampoline. -/
theorem contexts_survive_start : ∃ m m' : ThreadMachine, m.Reachable exampleImage ∧
    m.step exampleImage (.sched (.thread .yield false)) = .ok m' ∧
      m'.sched.currentThread = some exampleThread ∧ m'.rip = exampleImage.threadTrampoline := by
  obtain ⟨heap, site, hm, hsite⟩ := exampleBoot_reachable
  have hrun : (exampleThreads.step (.thread .yield false)).map
      (fun τ => τ.sys.kernel.sched.currentThread) = .ok (some exampleThread) := by
    decide
  obtain ⟨τ, hτ, hcurrent⟩ := map_ok hrun
  have hs : (exampleBoot heap site).step exampleImage (.sched (.thread .yield false)) =
      .ok ({ exampleBoot heap site with
        threads := τ
        heap := freeReleased heap (exampleThreads.sys.released (.thread .yield false)) }.switch
          exampleImage (exampleBoot heap site).sched.currentThread) := by
    simp only [ThreadMachine.step, exampleBoot, hτ, Except.mapError, bind, Except.bind]
    rfl
  have hadm : (exampleBoot heap site).Admissible exampleImage
      (.sched (.thread .yield false)) := by
    constructor
    · intro _ _ _ _ heq
      cases heq
    · intro _
      constructor
      · show (0x210000 : Word).toNat + 56 ≤ (0x214000 : Word).toNat
        decide
      · show (0x214000 : Word).toNat ≤ (0x210000 : Word).toNat + bootStackSize
        decide
  have hnone : (exampleBoot heap site).sched.currentThread = none := by
    show exampleThreads.sys.kernel.sched.currentThread = none
    decide
  generalize hm' : ThreadMachine.switch _ _ _ = m' at hs
  have hcurrent' : m'.sched.currentThread = some exampleThread := by
    rw [← hm', ThreadMachine.sched, ThreadMachine.switch_threads]
    exact hcurrent
  obtain ⟨hresumed, -⟩ := (contexts_survive hm hadm hs).2 exampleThread hcurrent' (by simp [hnone])
  refine ⟨_, _, hm, hs, hcurrent', ?_⟩
  rw [show m'.rip = m'.cpu.rip from rfl, hresumed.rip]
  exact congrArg CallSite.returnAddress hsite

end Tianole.Sched
