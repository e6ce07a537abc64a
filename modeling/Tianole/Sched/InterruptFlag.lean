import Tianole.Sched.Machine

/-! The interrupt flag in thread context. A critical section gives the flag back as it found
it, and so does every step but three: an interrupt, its return, and a context switch, which
keeps the flag of the context it leaves. -/
namespace Tianole.Sched
open Runs

/-! ### Critical sections keep the flag -/

section
variable {k k' : Kernel} {control : Control} {call : Call} {cond : Bool}

theorem withLock_flag {α : Type} {lock : LockId} {x : α}
    {body : Scheduler → Except Stop (Scheduler × α)} (h : withLock k lock body = .ok (k', x)) :
    k'.locks.interruptFlag = k.locks.interruptFlag := by
  obtain ⟨⟨locks, flags⟩, hlock, h⟩ := bind_ok h
  obtain ⟨⟨s, y⟩, -, h⟩ := bind_ok h
  obtain ⟨locks', hunlock, h⟩ := bind_ok h
  obtain ⟨rfl, -⟩ := Prod.mk.inj (Except.ok.inj h)
  unfold spinLockIrqsave at hlock
  split at hlock
  next => cases hlock
  next =>
    obtain ⟨rfl, rfl⟩ := Prod.mk.inj (Except.ok.inj hlock)
    unfold spinUnlockIrqrestore at hunlock
    split at hunlock
    next => cases hunlock
    next =>
      split at hunlock
      next => cases hunlock
      next =>
        obtain rfl := Except.ok.inj hunlock
        cases k.locks.interruptFlag <;> rfl

theorem waitQueueWake_flag {kind : WakeKind} {queue : Option QueuePtr}
    (h : waitQueueWake kind k queue = .ok k') :
    k'.locks.interruptFlag = k.locks.interruptFlag := by
  cases queue with
  | none => rw [Except.ok.inj h]
  | some q =>
    obtain ⟨⟨k₁, u⟩, hlock, hk⟩ := bind_ok h
    obtain rfl := Except.ok.inj hk
    exact withLock_flag hlock

theorem kernelThreadCreate_flag {entry stack : ℕ} {object made : Option ThreadPtr}
    (h : kernelThreadCreate k entry object stack = .ok (k', made)) :
    k'.locks.interruptFlag = k.locks.interruptFlag := by
  rcases kernelThreadCreate_cases h with ⟨rfl, -⟩ | ⟨t, -, -, hlock⟩
  · rfl
  · exact withLock_flag hlock

theorem schedReapDeadThreads_flag (h : schedReapDeadThreads k = .ok k') :
    k'.locks.interruptFlag = k.locks.interruptFlag := by
  obtain ⟨⟨k₁, reapList⟩, hlock, h⟩ := bind_ok h
  obtain ⟨s, -, h⟩ := bind_ok h
  obtain rfl := Except.ok.inj h
  have hflag : k₁.locks.interruptFlag = k.locks.interruptFlag := withLock_flag hlock
  exact hflag

theorem beginCall_flag (h : beginCall k cond call = .ok (k', control)) :
    k'.locks.interruptFlag = k.locks.interruptFlag := by
  cases beginCall_cases h with
  | stays => rfl
  | queueSleep q _ hlock => exact withLock_flag hlock
  | wake kind queue hw => exact waitQueueWake_flag hw
  | create entry object stack made hw => exact kernelThreadCreate_flag hw
  | exit => rfl

/-- A thread runs on with the interrupt flag it had. -/
theorem threadStep_flag {pc : Pc} (h : threadStep k pc call cond = .ok (k', control)) :
    k'.locks.interruptFlag = k.locks.interruptFlag := by
  have hsame {c : Control} (he : (Except.ok (k, c) : Except Stop (Kernel × Control)) =
      .ok (k', control)) : k'.locks.interruptFlag = k.locks.interruptFlag := by
    rw [(Prod.mk.inj (Except.ok.inj he)).1]
  cases pc with
  | entry => exact beginCall_flag h
  | sleepMark wakeTick =>
    obtain ⟨s, -, h⟩ := bind_ok h
    rw [← (Prod.mk.inj (Except.ok.inj h)).1]
  | queueSleepCheck | waitCheck | waitRemove | timeoutCheck | timeoutRemove =>
    rw [threadStep] at h
    exact withLock_flag h
  | _ => exact hsame h

end

/-! ### The flag of a context -/

/-- A stack without an interrupt frame: a thread in its own code or in a `sched_yield` that
it called itself. -/
def Voluntary (frames : List Activation) : Prop := ∀ act ∈ frames, act.irq = none

instance (frames : List Activation) : Decidable (Voluntary frames) :=
  inferInstanceAs (Decidable (∀ act ∈ frames, act.irq = none))

namespace Machine

/-- Interrupts are enabled in thread context. -/
def ThreadFlag (σ : Machine) : Prop := Voluntary σ.frames → σ.flag = true

/-- A context switch to a stack without an interrupt frame is made with the flag set. -/
def SwitchesEnabled (σ : Machine) : MachineAction → Prop
  | .run _ _ => ∀ act rest prev t, σ.frames = act :: rest → act.point = .switch prev (some t) →
      Voluntary (σ.saved (some t)).frames → σ.flag = true
  | .interrupt _ => True

/-- Every interrupt frame, on the stack in use or on a saved one, restores a set flag. -/
structure FlagOk (σ : Machine) : Prop where
  frames : ∀ act ∈ σ.frames, act.irq ≠ some false
  saved : ∀ p, ∀ act ∈ (σ.saved p).frames, act.irq ≠ some false
  thread : σ.ThreadFlag

section
variable {σ σ' : Machine} {act : Activation} {rest : List Activation}

theorem voluntary_cons : Voluntary (act :: rest) ↔ act.irq = none ∧ Voluntary rest :=
  List.forall_mem_cons

theorem FlagOk.interrupt (h : σ.FlagOk) {events : List IrqEvent}
    (hs : σ.interrupt events = .ok σ') : σ'.FlagOk := by
  unfold Machine.interrupt at hs
  split at hs
  next => exact Except.ok.inj hs ▸ h
  next hon =>
    replace hon : σ.flag = true := by simpa using hon
    obtain ⟨⟨k, resched⟩, -, rfl⟩ := map_ok hs
    cases resched with
    | false => exact ⟨h.frames, h.saved, fun _ => hon⟩
    | true =>
      refine ⟨fun b hb => ?_, h.saved, fun hv => ?_⟩
      · rcases List.mem_cons.mp hb with rfl | hb
        · simp [hon]
        · exact h.frames b hb
      · simp [voluntary_cons] at hv

theorem FlagOk.runThread (h : σ.FlagOk) (hf : σ.frames = []) {call : Call} {cond : Bool}
    (hs : σ.runThread call cond = .ok σ') : σ'.FlagOk := by
  unfold Machine.runThread at hs
  split at hs
  next => exact Except.ok.inj hs ▸ h
  next =>
    obtain ⟨⟨k, control⟩, hstep, rfl⟩ := map_ok hs
    have hflag : k.locks.interruptFlag = true :=
      (threadStep_flag hstep).trans (h.thread (by simp [hf, Voluntary]))
    refine ⟨fun b hb => ?_, fun p b hb => ?_, fun _ => hflag⟩
    · cases control <;> simp_all [Machine.finish]
    · cases control with
      | spawned made =>
        cases made with
        | none => exact h.saved p b hb
        | some t =>
          simp only [Machine.finish, Function.update_apply] at hb
          split at hb
          next => simp at hb
          next => exact h.saved p b hb
      | _ => exact h.saved p b hb

/-- A step of `sched_yield` that stays on its stack and keeps the flag. -/
theorem FlagOk.goto (h : σ.FlagOk) (hf : σ.frames = act :: rest) (k : Kernel)
    (hk : k.locks.interruptFlag = σ.flag) (p : YieldPoint) : (σ.goto act rest k p).FlagOk := by
  have hframes := h.frames
  have hthread := h.thread
  rw [ThreadFlag, hf, voluntary_cons] at hthread
  rw [hf, List.forall_mem_cons] at hframes
  refine ⟨List.forall_mem_cons.mpr hframes, h.saved, fun hv => ?_⟩
  obtain ⟨hirq, hrest⟩ := voluntary_cons.mp hv
  exact hk.trans (hthread ⟨hirq, hrest⟩)

theorem FlagOk.goto_sched (h : σ.FlagOk) (hf : σ.frames = act :: rest) (s : Scheduler)
    (p : YieldPoint) : (σ.goto act rest ⟨s, σ.kernel.locks⟩ p).FlagOk :=
  h.goto hf ⟨s, σ.kernel.locks⟩ rfl p

theorem FlagOk.runYield (h : σ.FlagOk) (hf : σ.frames = act :: rest)
    (hok : ∀ prev t, act.point = .switch prev (some t) →
      Voluntary (σ.saved (some t)).frames → σ.flag = true)
    (hs : σ.runYield act rest = .ok σ') : σ'.FlagOk := by
  have hframes := h.frames
  rw [hf, List.forall_mem_cons] at hframes
  unfold Machine.runYield at hs
  simp only at hs
  split at hs
  next =>
    obtain ⟨-, -, hs⟩ := bind_ok hs
    obtain ⟨k, hreap, rfl⟩ := map_ok hs
    exact h.goto hf k (schedReapDeadThreads_flag hreap) _
  next =>
    obtain ⟨next, -, rfl⟩ := map_ok hs
    split <;> exact h.goto_sched hf _ _
  next => exact Except.ok.inj hs ▸ h.goto_sched hf _ _
  next =>
    obtain ⟨s, -, rfl⟩ := map_ok hs
    exact h.goto_sched hf _ _
  next =>
    obtain ⟨s, -, rfl⟩ := map_ok hs
    exact h.goto_sched hf _ _
  next => exact Except.ok.inj hs ▸ h.goto_sched hf _ _
  next => exact Except.ok.inj hs ▸ h.goto_sched hf _ _
  next prev next hpoint =>
    cases next with
    | none => cases hs
    | some t =>
      obtain rfl := Except.ok.inj hs
      refine ⟨h.saved (some t), fun p b hb => ?_, hok prev t hpoint⟩
      simp only [contextSwitch, Function.update_apply] at hb
      split at hb
      next =>
        rcases List.mem_cons.mp hb with rfl | hb
        · exact hframes.1
        · exact hframes.2 b hb
      next => exact h.saved p b hb
  next =>
    split at hs
    next b hirq =>
      -- The return from an interrupt: the flag that it saved was set.
      obtain rfl := Except.ok.inj hs
      refine ⟨hframes.2, h.saved, fun _ => ?_⟩
      cases b with
      | false => exact absurd hirq hframes.1
      | true => rfl
    next hirq =>
      obtain rfl := Except.ok.inj hs
      refine ⟨hframes.2, h.saved, fun hv => h.thread ?_⟩
      rw [hf]
      exact voluntary_cons.mpr ⟨hirq, hv⟩

theorem FlagOk.step (h : σ.FlagOk) {action : MachineAction} (hok : σ.SwitchesEnabled action)
    (hs : σ.step action = .ok σ') : σ'.FlagOk := by
  cases action with
  | interrupt events => exact h.interrupt hs
  | run call cond =>
    simp only [Machine.step] at hs
    split at hs
    next hf => exact h.runThread hf hs
    next act rest hf => exact h.runYield hf (fun prev t => hok act rest prev t hf) hs

/-- A switch that is made with the flag clear leaves a thread with interrupts disabled. -/
theorem switchesEnabled_of_step {action : MachineAction} (h : σ'.ThreadFlag)
    (hs : σ.step action = .ok σ') : σ.SwitchesEnabled action := by
  cases action with
  | interrupt events => trivial
  | run call cond =>
    intro act rest prev t hf hp hv
    simp only [Machine.step, hf, Machine.runYield, hp] at hs
    obtain rfl := Except.ok.inj hs
    exact h hv

end

end Machine

/-- In every run in which `arch_context_switch` resumes a stack without an interrupt frame
only while interrupts are enabled, interrupts are enabled in thread context; and the first
switch that does not meet the condition ends this. -/
theorem switchesEnabled_threadFlag {σ : Machine} (h : MachineReachable Machine.SwitchesEnabled σ) :
    σ.ThreadFlag ∧ ∀ action σ', σ.step action = .ok σ' →
      (σ'.ThreadFlag ↔ σ.SwitchesEnabled action) := by
  have hinv : σ.FlagOk := by
    refine Reach.invariant (I := Machine.FlagOk) h ?_ ?_
    · rintro σ ⟨run, hi⟩
      exact ⟨by simp [hi.frames], by simp [hi.saved], fun _ => hi.flag⟩
    · rintro σ action σ' hσ ⟨-, hok⟩ hs
      exact hσ.step hok hs
  exact ⟨hinv.thread, fun action σ' hs =>
    ⟨fun ht => Machine.switchesEnabled_of_step ht hs, fun hok => (hinv.step hok hs).thread⟩⟩

namespace Machine

/-- A step of a thread that creates nothing and resumes no stack in thread context while the flag
is clear, or an interrupt. -/
def enabledStep (σ : Machine) : MachineAction → Bool
  | .run call _ => call = .yield && σ.frames.head?.all fun act =>
      match act.point with
      | .switch _ (some t) => !decide (Voluntary (σ.saved (some t)).frames) || σ.flag
      | _ => true
  | .interrupt _ => true

theorem enabledStep_ok {σ : Machine} {action : MachineAction}
    (h : σ.enabledStep action = true) : MachineAdmissible σ action ∧ σ.SwitchesEnabled action := by
  cases action with
  | interrupt events => exact ⟨trivial, trivial⟩
  | run call cond =>
    simp only [enabledStep, Bool.and_eq_true, decide_eq_true_eq] at h
    obtain ⟨rfl, h⟩ := h
    refine ⟨trivial, fun act rest prev t hf hp hv => ?_⟩
    simpa [hf, hp, hv] using h

end Machine

/-- Voluntary switches lead from the boot context to thread 2 and on to thread 3. The tick that then
interrupts thread 3 is about to resume thread 2 with interrupts disabled. -/
theorem switchesEnabled_threadFlag_switch : ∃ σ τ τ' : Machine,
    MachineReachable Machine.SwitchesEnabled σ ∧ σ.owner = some 3 ∧ σ.frames = [] ∧
    σ.flag = true ∧
    MachineReachable Machine.SwitchesEnabled τ ∧
    τ.frames = [⟨.switch (some 3) (some 2), some true⟩] ∧ τ.ThreadFlag ∧
    τ.step (.run .yield false) = .ok τ' ∧ ¬ τ.SwitchesEnabled (.run .yield false) ∧
    ¬ τ'.ThreadFlag := by
  have hboot : Reach Machine.step (fun σ => ∃ run, MachineInitial σ run)
      (fun σ action => σ.enabledStep action = true) (.boot [1, 2, 3] 1) :=
    .start ⟨[1, 2, 3], machineBoot_initial (by decide) (by decide)⟩
  have henabled {σ : Machine} (h : Reach Machine.step (fun σ => ∃ run, MachineInitial σ run)
      (fun σ action => σ.enabledStep action = true) σ) :
      MachineReachable Machine.SwitchesEnabled σ := h.mono fun _ _ => Machine.enabledStep_ok
  let toThree : List MachineAction := List.replicate 18 (.run .yield false)
  obtain ⟨σ, hσ, hatσ⟩ := hboot.admitted_map (f := fun σ => (σ.owner, σ.frames)) toThree
    (b := (some 3, [])) rfl
  obtain ⟨τ, hτ, hatτ⟩ := hboot.admitted_map
    (f := fun τ => (τ.frames, τ.flag, (τ.saved (some 2)).frames,
      (τ.step (.run .yield false)).map fun _ => ()))
    (toThree ++ .interrupt [.tick] :: List.replicate 7 (.run .yield false))
    (b := ([⟨.switch (some 3) (some 2), some true⟩], false, [⟨.ret, none⟩], .ok ())) rfl
  obtain ⟨howner, hfσ⟩ := Prod.mk.inj hatσ
  simp only [Prod.mk.injEq] at hatτ
  obtain ⟨hfτ, hflag, hsaved, hstep⟩ := hatτ
  obtain ⟨τ', hτ', -⟩ := map_ok hstep
  have hmasked : ¬ τ.SwitchesEnabled (.run .yield false) := by
    intro he
    have hon := he _ _ _ _ hfτ rfl (by rw [hsaved]; decide)
    rw [hflag] at hon
    cases hon
  obtain ⟨hthread, hiff⟩ := switchesEnabled_threadFlag (henabled hτ)
  exact ⟨σ, τ, τ', henabled hσ, howner, hfσ,
    (switchesEnabled_threadFlag (henabled hσ)).1 (by rw [hfσ]; decide), henabled hτ, hfτ, hthread,
    hτ', hmasked, fun ht => hmasked ((hiff _ _ hτ').mp ht)⟩

/-- Thread 2 runs when a tick arrives; the interrupt switches to thread 3, which has not run
before, and thread 3 enters its code with interrupts disabled. -/
theorem fresh_thread_masked : ∃ σ, MachineReachable (fun _ _ => True) σ ∧ σ.owner = some 3 ∧
    σ.frames = [] ∧ σ.flag = false := by
  have hboot : MachineReachable (fun _ _ => True) (.boot [1, 2, 3] 1) :=
    machineBoot_reachable (by decide) (by decide)
  obtain ⟨σ, hr, hσ⟩ := Reach.exec_map (f := fun σ => (σ.owner, σ.frames, σ.flag)) hboot
    (List.replicate 9 (.run .yield false) ++ .interrupt [.tick] ::
      List.replicate 8 (.run .yield false))
    (by simp [MachineAdmissible, Fresh]) (b := (some 3, [], false)) rfl
  obtain ⟨ho, hrest⟩ := Prod.mk.inj hσ
  obtain ⟨hf, hflag⟩ := Prod.mk.inj hrest
  exact ⟨σ, hr, ho, hf, hflag⟩

end Tianole.Sched
