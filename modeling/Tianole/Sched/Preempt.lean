import Mathlib.Tactic.Set
import Tianole.Sched.Machine

/-! `sched_yield` under preemption. As long as no interrupt reschedules between the choice of
the next thread and the context switch, the chosen thread stays ready, every stack pointer
goes into the thread that owns the stack, and no stack in use is released. -/
namespace Tianole.Sched
open Runs

/-! ### What an interrupt handler does to the threads -/

/-- Handlers make threads ready that were blocked, and nothing else. -/
structure Quiet (s s' : Scheduler) : Prop where
  current : s'.currentThread = s.currentThread
  idle : s'.idleThread = s.idleThread
  scheduleLocked : s'.scheduleLocked = s.scheduleLocked
  irqDepth : s'.irqDepth = s.irqDepth
  running : ∀ t, (s'.thread t).state = .running ↔ (s.thread t).state = .running
  ready : ∀ t, (s.thread t).state = .ready → (s'.thread t).state = .ready

section
variable {s s' s'' : Scheduler} {k k' : Kernel} {pc : ThreadPtr → Pc} {a : Shape}

theorem Quiet.refl (s : Scheduler) : Quiet s s :=
  ⟨rfl, rfl, rfl, rfl, fun _ => .rfl, fun _ h => h⟩

theorem Quiet.trans (h : Quiet s s') (h' : Quiet s' s'') : Quiet s s'' :=
  ⟨h'.current.trans h.current, h'.idle.trans h.idle, h'.scheduleLocked.trans h.scheduleLocked,
    h'.irqDepth.trans h.irqDepth, fun t => (h'.running t).trans (h.running t),
    fun t ht => h'.ready t (h.ready t ht)⟩

theorem Quiet.active (h : Quiet s s') {t : ThreadPtr} (ht : Active (s.thread t)) :
    Active (s'.thread t) := ht.imp (h.ready t) (h.running t).mpr

theorem ticked_quiet (s : Scheduler) (run : List ThreadPtr) : Quiet s (s.ticked run) := by
  have hstate (t : ThreadPtr) : ((s.ticked run).thread t).state = (s.thread t).state ∨
      ((s.ticked run).thread t).state = .ready ∧ (s.thread t).state = .sleeping := by
    rw [ticked_thread]
    split
    next hs => exact .inr ⟨rfl, hs.2.1⟩
    next => exact .inl rfl
  refine ⟨rfl, rfl, rfl, rfl, fun t => ?_, fun t ht => ?_⟩
  · rcases hstate t with h | ⟨h, h'⟩
    · rw [h]
    · simp [h, h']
  · rcases hstate t with h | ⟨h, -⟩
    · rw [h, ht]
    · exact h

theorem wakeUp_quiet {l : List ThreadPtr} (hskel : s'.skeleton = s.skeleton.wakeUp l)
    (hl : ∀ t ∈ l, Waitable s t) : Quiet s s' := by
  have hfield {β : Type} (g : Scheduler → β) : g s'.skeleton = g (s.skeleton.wakeUp l) :=
    congrArg g hskel
  refine ⟨hfield Scheduler.currentThread, hfield Scheduler.idleThread,
    hfield Scheduler.scheduleLocked, hfield Scheduler.irqDepth, fun t => ?_, fun t ht => ?_⟩
  · rw [wakeUp_state hskel]
    split
    next hm => rcases hl t hm with h | h <;> simp [h]
    next => rfl
  · rw [wakeUp_state hskel, ht, ite_self]

theorem handleEvent_quiet {e : IrqEvent} (hf : k.locks.Free) (h : Wf k.sched pc a)
    (hs : handleEvent k e = .ok k') : k'.locks = k.locks ∧ Quiet k.sched k'.sched ∧
      ∃ a', a'.run = a.run ∧ Wf k'.sched pc a' := by
  cases e with
  | tick =>
    obtain ⟨s, ht, rfl⟩ := map_ok hs
    rw [timerTick_eq h.rep] at ht
    obtain rfl := Except.ok.inj ht
    exact ⟨rfl, ticked_quiet _ _, a, rfl, h.tick⟩
  | wake kind queue =>
    obtain ⟨hlocks, a', l, hrun, hwf, hskel, hl⟩ := waitQueueWake_wf hf h hs
    exact ⟨hlocks, wakeUp_quiet hskel fun t ht => (hl t ht).1, a', hrun, hwf⟩

theorem handleEvents_quiet {events : List IrqEvent} (hf : k.locks.Free) (h : Wf k.sched pc a)
    (hs : handleEvents k events = .ok k') : k'.locks = k.locks ∧ Quiet k.sched k'.sched ∧
      ∃ a', a'.run = a.run ∧ Wf k'.sched pc a' := by
  induction events generalizing k a with
  | nil =>
    obtain rfl := Except.ok.inj hs
    exact ⟨rfl, .refl _, a, rfl, h⟩
  | cons e es ih =>
    obtain ⟨k₁, he, hes⟩ := bind_ok hs
    obtain ⟨hlocks, hq, a₁, hrun, hwf⟩ := handleEvent_quiet hf h he
    obtain ⟨hlocks', hq', a', hrun', hwf'⟩ := ih (by rw [hlocks]; exact hf) hwf hes
    exact ⟨hlocks'.trans hlocks, hq.trans hq', a', hrun'.trans hrun, hwf'⟩

end

/-! ### The points of `sched_yield` -/

/-- At most the current thread is running; the idle thread is running while it is current. -/
structure Settled (s : Scheduler) (run : List ThreadPtr) : Prop where
  running : ∀ t ∈ run, (s.thread t).state = .running → s.currentThread = some t
  idle : ∀ i, s.currentThread = some i → s.idleThread = some i → (s.thread i).state = .running

/-- The CPU executes on the stack of the current thread, outside a switch. -/
structure Resting (s : Scheduler) (run : List ThreadPtr) (owner : Option ThreadPtr) : Prop where
  settled : Settled s run
  unlocked : s.scheduleLocked = false
  owner : owner = s.currentThread

/-- `next` is a ready thread of the run queue other than `prev`. -/
def Chosen (s : Scheduler) (run : List ThreadPtr) (prev next : Option ThreadPtr) : Prop :=
  ∃ t ∈ run, next = some t ∧ prev ≠ some t ∧ (s.thread t).state = .ready

/-- `next` is the one running thread of the run queue, and it is not `prev`. -/
def Dispatched (s : Scheduler) (run : List ThreadPtr) (prev next : Option ThreadPtr) : Prop :=
  ∃ t ∈ run, next = some t ∧ prev ≠ some t ∧ (s.thread t).state = .running ∧
    ∀ u ∈ run, (s.thread u).state = .running → u = t

/-- From the choice of `next` to the context switch. -/
def YieldPoint.inGap : YieldPoint → Bool
  | .reap | .select | .ret => false
  | _ => true

/-- What holds while the innermost `sched_yield` stands at a point. -/
def Phase (s : Scheduler) (run : List ThreadPtr) (owner : Option ThreadPtr) : YieldPoint → Prop
  | .reap | .select => Resting s run owner
  | .ret => Resting s run owner ∧ ∀ c, s.currentThread = some c → Active (s.thread c)
  | .lock prev next => Settled s run ∧ s.scheduleLocked = false ∧ owner = prev ∧
      s.currentThread = prev ∧ Chosen s run prev next
  | .markPrev prev next => Settled s run ∧ s.scheduleLocked = true ∧ owner = prev ∧
      s.currentThread = prev ∧ Chosen s run prev next
  | .setRunning prev next => (∀ t ∈ run, (s.thread t).state ≠ .running) ∧
      s.scheduleLocked = true ∧ owner = prev ∧ s.currentThread = prev ∧ Chosen s run prev next
  | .setCurrent prev next => s.scheduleLocked = true ∧ owner = prev ∧ s.currentThread = prev ∧
      Dispatched s run prev next
  | .unlock prev next => s.scheduleLocked = true ∧ owner = prev ∧ s.currentThread = next ∧
      Dispatched s run prev next
  | .switch prev next => s.scheduleLocked = false ∧ owner = prev ∧ s.currentThread = next ∧
      Dispatched s run prev next

/-- The same for a whole stack: below the innermost call, no call stands in the gap. -/
def Stacked (s : Scheduler) (pc : ThreadPtr → Pc) (run : List ThreadPtr)
    (owner : Option ThreadPtr) : List Activation → Prop
  | [] => Resting s run owner ∧ Awake false s pc
  | act :: rest => Phase s run owner act.point ∧ ∀ b ∈ rest, b.point.inGap = false

/-- A switched-out thread keeps its own stack, on which it has not started yet or is about to
return from `sched_yield`. -/
structure Suspended (t : ThreadPtr) (c : Context) : Prop where
  owner : c.owner = some t
  frames : c.frames = [] ∨ ∃ irq rest, c.frames = ⟨.ret, irq⟩ :: rest ∧
    ∀ b ∈ rest, b.point.inGap = false

structure MachineOk (σ : Machine) (a : Shape) : Prop where
  wf : Wf σ.kernel.sched σ.pc a
  free : σ.kernel.locks.Free
  depth : σ.kernel.sched.irqDepth = 0
  stack : Stacked σ.kernel.sched σ.pc a.run σ.owner σ.frames
  saved : ∀ t ∈ a.run, σ.owner ≠ some t → Suspended t (σ.saved (some t))

section
variable {s s' : Scheduler} {pc : ThreadPtr → Pc} {run : List ThreadPtr}
  {owner prev next : Option ThreadPtr} {p : YieldPoint} {frames : List Activation}

theorem Settled.quiet (h : Settled s run) (hq : Quiet s s') : Settled s' run where
  running t ht hr := hq.current.trans (h.running t ht ((hq.running t).mp hr))
  idle i hc hi := (hq.running i).mpr (h.idle i (hq.current ▸ hc) (hq.idle ▸ hi))

theorem Resting.quiet (h : Resting s run owner) (hq : Quiet s s') : Resting s' run owner :=
  ⟨h.settled.quiet hq, hq.scheduleLocked.trans h.unlocked, h.owner.trans hq.current.symm⟩

theorem Chosen.quiet (h : Chosen s run prev next) (hq : Quiet s s') : Chosen s' run prev next := by
  obtain ⟨t, ht, hn, hp, hr⟩ := h
  exact ⟨t, ht, hn, hp, hq.ready t hr⟩

theorem Dispatched.quiet (h : Dispatched s run prev next) (hq : Quiet s s') :
    Dispatched s' run prev next := by
  obtain ⟨t, ht, hn, hp, hr, hu⟩ := h
  exact ⟨t, ht, hn, hp, (hq.running t).mpr hr, fun u hm hru => hu u hm ((hq.running u).mp hru)⟩

theorem Phase.quiet (h : Phase s run owner p) (hq : Quiet s s') : Phase s' run owner p := by
  have hc := hq.current
  have hl := hq.scheduleLocked
  cases p with
  | reap | select => exact Resting.quiet h hq
  | ret => exact ⟨h.1.quiet hq, fun c hc' => hq.active (h.2 c (hc ▸ hc'))⟩
  | lock prev next | markPrev prev next =>
    obtain ⟨hset, hlock, ho, hcur, hch⟩ := h
    exact ⟨hset.quiet hq, hl.trans hlock, ho, hc.trans hcur, hch.quiet hq⟩
  | setRunning prev next =>
    obtain ⟨hnone, hlock, ho, hcur, hch⟩ := h
    exact ⟨fun t ht hr => hnone t ht ((hq.running t).mp hr), hl.trans hlock, ho, hc.trans hcur,
      hch.quiet hq⟩
  | setCurrent prev next | unlock prev next | switch prev next =>
    obtain ⟨hlock, ho, hcur, hd⟩ := h
    exact ⟨hl.trans hlock, ho, hc.trans hcur, hd.quiet hq⟩

theorem Stacked.quiet (h : Stacked s pc run owner frames) (hq : Quiet s s') :
    Stacked s' pc run owner frames := by
  cases frames with
  | nil =>
    refine ⟨h.1.quiet hq, fun c hc => ?_⟩
    rcases h.2 c (hq.current ▸ hc) with hy | hr | ⟨hs, hr⟩
    · exact .inl hy
    · exact .inr (.inl ((hq.running c).mpr hr))
    · exact .inr (.inr ⟨hs, hq.ready c hr⟩)
  | cons act rest => exact ⟨Phase.quiet h.1 hq, h.2⟩

theorem Phase.resting (h : Phase s run owner p) (hp : p.inGap = false) : Resting s run owner := by
  cases p with
  | reap | select => exact h
  | ret => exact h.1
  | _ => cases hp

/-- An interrupt may reschedule wherever no call stands in the gap. -/
theorem Stacked.push (h : Stacked s pc run owner frames)
    (hgap : ∀ act rest, frames = act :: rest → act.point.inGap = false) (irq : Option Bool) :
    Stacked s pc run owner (⟨.reap, irq⟩ :: frames) := by
  cases frames with
  | nil => exact ⟨h.1, by simp⟩
  | cons act rest =>
    have hact := hgap act rest rfl
    exact ⟨Phase.resting h.1 hact, List.forall_mem_cons.mpr ⟨hact, h.2⟩⟩

/-- The return from `sched_yield`. -/
theorem Stacked.pop {irq : Option Bool} (h : Stacked s pc run owner (⟨.ret, irq⟩ :: frames)) :
    Stacked s pc run owner frames := by
  obtain ⟨⟨hrest, hactive⟩, hbelow⟩ := h
  cases frames with
  | nil =>
    refine ⟨hrest, fun c hc => .inr ?_⟩
    rcases hactive c hc with hr | hr
    · exact .inr ⟨rfl, hr⟩
    · exact .inl hr
  | cons act rest =>
    obtain ⟨hact, hbelow⟩ := List.forall_mem_cons.mp hbelow
    refine ⟨?_, hbelow⟩
    cases hp : act.point with
    | reap | select => exact hrest
    | ret => exact ⟨hrest, hactive⟩
    | _ => simp [hp, YieldPoint.inGap] at hact

end

/-! ### Every step keeps the invariant -/

/-- No interrupt that reschedules arrives between the choice of the next thread and the
context switch. -/
def Machine.QuietInGap (σ : Machine) : MachineAction → Prop
  | .run _ _ => True
  | .interrupt events => ∀ act rest, σ.frames = act :: rest → act.point.inGap = true →
      σ.flag = true → ∀ k, σ.irqDecision events ≠ .ok (k, true)

section
variable {σ σ' : Machine} {a a' : Shape} {act : Activation} {rest : List Activation}
  {k : Kernel} {pc : ThreadPtr → Pc} {owner : Option ThreadPtr} {events : List IrqEvent}

theorem Base.resting (h : Base k pc a) (ho : owner = k.sched.currentThread) :
    Resting k.sched a.run owner := ⟨⟨h.running, h.idleRunning⟩, h.unlocked, ho⟩

theorem MachineOk.base (h : MachineOk σ a) (hr : Resting σ.kernel.sched a.run σ.owner) :
    Base σ.kernel σ.pc a :=
  ⟨h.wf, h.free, hr.unlocked, h.depth, hr.settled.running, hr.settled.idle⟩

/-- The decision at the end of the one interrupt that is being served. -/
theorem schedIrqLeave_one {s : Scheduler} (hd : s.irqDepth = 1) :
    schedIrqLeave s =
      if !s.needResched || s.currentThread.isNone || s.scheduleLocked then
        .ok ({ s with irqDepth := 0 }, false)
      else .ok ({ s with irqDepth := 0, needResched := false }, true) := by
  simp only [schedIrqLeave, hd, Nat.one_ne_zero, ↓reduceIte, Nat.sub_self, ne_eq,
    not_true_eq_false]

theorem irqDecision_ok {resched : Bool} (h : MachineOk σ a)
    (hs : σ.irqDecision events = .ok (k, resched)) : k.locks.Free ∧
      Quiet σ.kernel.sched k.sched ∧ ∃ a', a'.run = a.run ∧ Wf k.sched σ.pc a' := by
  obtain ⟨k₁, hk, hs⟩ := bind_ok hs
  obtain ⟨⟨s, b⟩, hleave, hpair⟩ := map_ok hs
  obtain ⟨rfl, rfl⟩ := Prod.mk.inj hpair
  set k₀ := Kernel.setFlag ⟨schedIrqEnter σ.kernel.sched, σ.kernel.locks⟩ false with hk₀
  have hfree : k₀.locks.Free := ⟨h.free.locked, h.free.depth⟩
  have hwf : Wf k₀.sched σ.pc a := h.wf.flags rfl rfl rfl rfl rfl rfl rfl h.wf.current
  have hone : k₀.sched.irqDepth = 1 := by simp [hk₀, Kernel.setFlag, schedIrqEnter, h.depth]
  obtain ⟨hlocks, hq, a', hrun, hwf'⟩ := handleEvents_quiet hfree hwf hk
  have hdepth : k₁.sched.irqDepth = 1 := hq.irqDepth.trans hone
  refine ⟨by rw [hlocks]; exact hfree, ?_⟩
  rw [schedIrqLeave_one hdepth] at hleave
  split at hleave <;>
    obtain ⟨rfl, -⟩ := Prod.mk.inj (Except.ok.inj hleave) <;>
    exact ⟨⟨hq.current, hq.idle, hq.scheduleLocked, h.depth.symm, hq.running, hq.ready⟩, a', hrun,
      hwf'.flags rfl rfl rfl rfl rfl rfl rfl hwf'.current⟩

theorem MachineOk.interrupt (h : MachineOk σ a) (hok : σ.QuietInGap (.interrupt events))
    (hs : σ.interrupt events = .ok σ') : ∃ a', MachineOk σ' a' := by
  unfold Machine.interrupt at hs
  split at hs
  next => exact ⟨a, Except.ok.inj hs ▸ h⟩
  next hon =>
    replace hon : σ.flag = true := by simpa using hon
    obtain ⟨⟨k, resched⟩, hdec, rfl⟩ := map_ok hs
    obtain ⟨hfree, hq, a', hrun, hwf⟩ := irqDecision_ok h hdec
    have hstack := h.stack.quiet hq
    have hdepth := hq.irqDepth.trans h.depth
    rw [← hrun] at hstack
    have hsaved := h.saved
    rw [← hrun] at hsaved
    cases resched with
    | false => exact ⟨a', hwf, ⟨hfree.locked, hfree.depth⟩, hdepth, hstack, hsaved⟩
    | true =>
      refine ⟨a', hwf, hfree, hdepth, hstack.push (fun act rest hf => ?_) _, hsaved⟩
      by_contra hgap
      exact hok act rest hf (by simpa using hgap) hon k hdec

theorem Machine.halted_eq (ho : σ.owner = σ.kernel.sched.currentThread) :
    σ.halted = System.halted ⟨σ.kernel, σ.pc⟩ := by
  simp [Machine.halted, System.halted, ho]

theorem Machine.point_eq (ho : σ.owner = σ.kernel.sched.currentThread) :
    σ.point = System.point ⟨σ.kernel, σ.pc⟩ := by
  cases hc : σ.kernel.sched.currentThread <;> simp only [Machine.point, System.point, ho, hc]

/-- The saved contexts after a step of a thread; a new thread has a fresh stack. -/
theorem MachineOk.finish_saved (h : MachineOk σ a) {control : Control}
    (hrun : a'.run = a.run ++ control.threads) :
    ∀ t ∈ a'.run, σ.owner ≠ some t → Suspended t ((σ.finish k control).saved (some t)) := by
  intro t ht ho
  rw [hrun] at ht
  have hold (hm : t ∈ a.run) := h.saved t hm ho
  cases control with
  | spawned made =>
    cases made with
    | none => exact hold (by simpa [Control.threads] using ht)
    | some u =>
      by_cases htu : t = u
      · subst htu
        simp only [Machine.finish, Function.update_self]
        exact ⟨rfl, .inl rfl⟩
      · have hne : (some t : Option ThreadPtr) ≠ some u := fun he => htu (Option.some.inj he)
        simp only [Machine.finish, Function.update_of_ne hne]
        exact hold (by simpa [Control.threads, htu] using ht)
  | _ => exact hold (by simpa [Control.threads] using ht)

theorem MachineOk.runThread (h : MachineOk σ a) (hf : σ.frames = []) {call : Call} {cond : Bool}
    (hfresh : Fresh σ.kernel.sched call) (hs : σ.runThread call cond = .ok σ') :
    ∃ a', MachineOk σ' a' := by
  have hstack := h.stack
  rw [hf] at hstack
  obtain ⟨hrest, hawake⟩ := hstack
  have hbase := h.base hrest
  have hinv : Inv false ⟨σ.kernel, σ.pc⟩ a := ⟨hbase, hawake⟩
  unfold Machine.runThread at hs
  split at hs
  next => exact ⟨a, Except.ok.inj hs ▸ h⟩
  next hh =>
    replace hh : System.halted ⟨σ.kernel, σ.pc⟩ = false := by
      rw [← Machine.halted_eq hrest.owner]; simpa using hh
    obtain ⟨⟨k, control⟩, hstep, rfl⟩ := map_ok hs
    rw [Machine.point_eq hrest.owner] at hstep
    have hso := hinv.stepOk hh hfresh hstep
    obtain ⟨a', hrun, hb⟩ := hso.base hbase (System.halted_iff.mp hh)
    have hpc : (σ.finish k control).pc = movePc σ.pc σ.kernel.sched.currentThread control := by
      simp [Machine.finish, hrest.owner]
    have hresting : Resting k.sched a'.run σ.owner :=
      hb.resting (hrest.owner.trans hso.advance.current.symm)
    refine ⟨a', hpc ▸ hb.wf, hb.free, hb.depth, ?_, h.finish_saved hrun⟩
    rw [hpc]
    rcases hso.point with ⟨p, rfl, -⟩ | ⟨hny, -⟩
    · exact ⟨hresting, by simp⟩
    · have hframes : (σ.finish k control).frames = [] := by
        cases control with
        | yieldTo p => exact absurd rfl (hny p)
        | _ => rfl
      rw [hframes]
      exact ⟨hresting, hinv.awake_step hstep hso hny⟩

/-- A step of the innermost `sched_yield` that stays on its stack. -/
theorem MachineOk.goto {p : YieldPoint} (h : MachineOk σ a) (hf : σ.frames = act :: rest)
    (hwf : Wf k.sched σ.pc a') (hlocks : k.locks = σ.kernel.locks)
    (hdepth : k.sched.irqDepth = σ.kernel.sched.irqDepth) (hrun : ∀ t ∈ a'.run, t ∈ a.run)
    (hp : Phase k.sched a'.run σ.owner p) : MachineOk (σ.goto act rest k p) a' := by
  have hstack := h.stack
  rw [hf] at hstack
  exact ⟨hwf, by change k.locks.Free; rw [hlocks]; exact h.free, hdepth.trans h.depth,
    ⟨hp, hstack.2⟩, fun t ht ho => h.saved t (hrun t ht) ho⟩

theorem MachineOk.phase (h : MachineOk σ a) (hf : σ.frames = act :: rest) :
    Phase σ.kernel.sched a.run σ.owner act.point ∧ ∀ b ∈ rest, b.point.inGap = false := by
  have hstack := h.stack
  rwa [hf] at hstack

theorem MachineOk.reap (h : MachineOk σ a) (hf : σ.frames = act :: rest)
    (hp : act.point = .reap) (hs : schedReapDeadThreads σ.kernel = .ok k) :
    ∃ a', MachineOk (σ.goto act rest k .select) a' := by
  have hrest := (h.phase hf).1
  rw [hp] at hrest
  have hbase := h.base hrest
  obtain ⟨s', hok, hwf, hskel⟩ := h.wf.reap h.free
  obtain rfl := Except.ok.inj (hok.symm.trans hs)
  obtain ⟨hb, hcur, -, -⟩ := hbase.reap hwf hskel
  refine ⟨a.reap σ.kernel.sched, h.goto hf hwf rfl (hb.depth.trans h.depth.symm) ?_
    (hb.resting (hrest.owner.trans hcur.symm))⟩
  exact fun t ht => (List.mem_filter.mp ht).1

theorem MachineOk.select (h : MachineOk σ a) (hf : σ.frames = act :: rest)
    (hp : act.point = .select) {next : Option ThreadPtr}
    (hs : nextRunnableThread σ.kernel.sched = .ok next) :
    MachineOk (if next = none ∨ next = σ.kernel.sched.currentThread then
      σ.goto act rest σ.kernel .ret
    else σ.goto act rest σ.kernel (.lock σ.kernel.sched.currentThread next)) a := by
  have hrest := (h.phase hf).1
  rw [hp] at hrest
  have hbase := h.base hrest
  rw [nextRunnableThread_eq h.wf.rep h.wf.current] at hs
  obtain rfl := Except.ok.inj hs
  have hstay {p : YieldPoint} (hphase : Phase σ.kernel.sched a.run σ.owner p) :
      MachineOk (σ.goto act rest σ.kernel p) a :=
    h.goto hf h.wf rfl rfl (fun _ ht => ht) hphase
  cases hpick : pick σ.kernel.sched a.run with
  | none =>
    obtain ⟨i, hcur, -, hr⟩ := hbase.pick_none hpick
    rw [if_pos (.inl rfl)]
    refine hstay ⟨hrest, fun c hc => ?_⟩
    obtain rfl := Option.some.inj (hcur.symm.trans hc)
    exact .inr hr
  | some t =>
    obtain ⟨hready, htm⟩ := pick_ready h.wf.rep h.wf.current h.wf.idle_mem hpick
    split
    next hself =>
      refine hstay ⟨hrest, fun c hc => ?_⟩
      obtain rfl : t = c := by simpa [hc] using hself
      exact .inl hready
    next hne =>
      have hne' : σ.kernel.sched.currentThread ≠ some t := fun he => hne (.inr he.symm)
      exact hstay ⟨hrest.settled, hrest.unlocked, hrest.owner, rfl, t, htm, rfl, hne', hready⟩

/-- A step in the gap that changes only the flags of the scheduler. -/
theorem MachineOk.gap {p : YieldPoint} {s : Scheduler} (h : MachineOk σ a)
    (hf : σ.frames = act :: rest) (hwf : Wf s σ.pc a)
    (hdepth : s.irqDepth = σ.kernel.sched.irqDepth) (hp : Phase s a.run σ.owner p) :
    MachineOk (σ.goto act rest ⟨s, σ.kernel.locks⟩ p) a :=
  h.goto hf hwf rfl hdepth (fun _ ht => ht) hp

theorem MachineOk.lock {prev next : Option ThreadPtr} (h : MachineOk σ a)
    (hf : σ.frames = act :: rest) (hp : act.point = .lock prev next) :
    MachineOk (σ.goto act rest ⟨{ σ.kernel.sched with scheduleLocked := true }, σ.kernel.locks⟩
      (.markPrev prev next)) a := by
  have hphase := (h.phase hf).1
  rw [hp] at hphase
  obtain ⟨hset, -, ho, hcur, hch⟩ := hphase
  exact h.gap hf (h.wf.flags rfl rfl rfl rfl rfl rfl rfl h.wf.current) rfl
    ⟨⟨hset.running, hset.idle⟩, rfl, ho, hcur, hch⟩

theorem preempt_fields (s : Scheduler) (prev : Option ThreadPtr) :
    (s.preempt prev).currentThread = s.currentThread ∧
      (s.preempt prev).scheduleLocked = s.scheduleLocked ∧
      (s.preempt prev).irqDepth = s.irqDepth := by
  cases prev with
  | none => exact ⟨rfl, rfl, rfl⟩
  | some p =>
    simp only [Scheduler.preempt]
    split <;> exact ⟨rfl, rfl, rfl⟩

theorem preempt_not_running {s : Scheduler} {run : List ThreadPtr} (h : Settled s run) :
    ∀ t ∈ run, ((s.preempt s.currentThread).thread t).state ≠ .running := by
  intro t ht
  by_cases hc : s.currentThread = some t
  · rw [hc, Scheduler.preempt]
    by_cases hr : (s.thread t).state = .running
    · simp [hr, withState_thread]
    · simp [hr]
  · rw [preempt_thread hc]
    exact fun hr => hc (h.running t ht hr)

theorem MachineOk.markPrev {prev next : Option ThreadPtr} (h : MachineOk σ a)
    (hf : σ.frames = act :: rest) (hp : act.point = .markPrev prev next) :
    MachineOk (σ.goto act rest ⟨σ.kernel.sched.preempt prev, σ.kernel.locks⟩
      (.setRunning prev next)) a := by
  have hphase := (h.phase hf).1
  rw [hp] at hphase
  obtain ⟨hset, hlock, ho, rfl, t, ht, hn, hne, hr⟩ := hphase
  obtain ⟨hcur, hlocked, hdepth⟩ :=
    preempt_fields σ.kernel.sched σ.kernel.sched.currentThread
  refine h.gap hf (h.wf.preempt h.wf.current) hdepth
    ⟨preempt_not_running hset, hlocked.trans hlock, ho, hcur, t, ht, hn, hne, ?_⟩
  rw [preempt_thread hne]
  exact hr

theorem MachineOk.setRunning {prev next : Option ThreadPtr} {s : Scheduler} (h : MachineOk σ a)
    (hf : σ.frames = act :: rest) (hp : act.point = .setRunning prev next)
    (hs : threadSetRunning σ.kernel.sched next = .ok s) :
    MachineOk (σ.goto act rest ⟨s, σ.kernel.locks⟩ (.setCurrent prev next)) a := by
  have hphase := (h.phase hf).1
  rw [hp] at hphase
  obtain ⟨hnone, hlock, ho, hcur, t, ht, rfl, hne, hr⟩ := hphase
  rw [setRunning_eq hr] at hs
  obtain rfl := Except.ok.inj hs
  refine h.gap hf (h.wf.dispatch ht hr) rfl
    ⟨hlock, ho, hcur, t, ht, rfl, hne, by simp [withState_thread], fun u hu hru => ?_⟩
  by_contra hut
  rw [withState_thread, if_neg hut] at hru
  exact hnone u hu hru

theorem MachineOk.setCurrent {prev next : Option ThreadPtr} (h : MachineOk σ a)
    (hf : σ.frames = act :: rest) (hp : act.point = .setCurrent prev next) :
    MachineOk (σ.goto act rest ⟨{ σ.kernel.sched with currentThread := next }, σ.kernel.locks⟩
      (.unlock prev next)) a := by
  have hphase := (h.phase hf).1
  rw [hp] at hphase
  obtain ⟨hlock, ho, -, t, ht, hn, hrest⟩ := hphase
  refine h.gap hf (h.wf.flags rfl rfl rfl rfl rfl rfl rfl fun c hc => ?_) rfl
    ⟨hlock, ho, rfl, t, ht, hn, hrest⟩
  obtain rfl := Option.some.inj (hn.symm.trans hc)
  exact ht

theorem MachineOk.unlock {prev next : Option ThreadPtr} (h : MachineOk σ a)
    (hf : σ.frames = act :: rest) (hp : act.point = .unlock prev next) :
    MachineOk (σ.goto act rest ⟨{ σ.kernel.sched with scheduleLocked := false }, σ.kernel.locks⟩
      (.switch prev next)) a := by
  have hphase := (h.phase hf).1
  rw [hp] at hphase
  obtain ⟨-, ho, hcur, hd⟩ := hphase
  exact h.gap hf (h.wf.flags rfl rfl rfl rfl rfl rfl rfl h.wf.current) rfl ⟨rfl, ho, hcur, hd⟩

/-- The context switch: the caller's stack goes to the caller, and the chosen thread is on its
own stack, running. -/
theorem MachineOk.contextSwitch {prev : Option ThreadPtr} {t : ThreadPtr} (h : MachineOk σ a)
    (hf : σ.frames = act :: rest) (hp : act.point = .switch prev (some t)) :
    MachineOk (σ.contextSwitch act.irq rest prev t) a := by
  obtain ⟨hphase, hbelow⟩ := h.phase hf
  rw [hp] at hphase
  obtain ⟨hlock, ho, hcur, u, hu, hn, hne, hr, hone⟩ := hphase
  obtain rfl := Option.some.inj hn
  have hsus := h.saved t hu (ho ▸ hne)
  have hresting : Resting σ.kernel.sched a.run (some t) := by
    refine ⟨⟨fun u hm hru => ?_, fun i hc _ => ?_⟩, hlock, hcur.symm⟩
    · rw [hone u hm hru, hcur]
    · obtain rfl := Option.some.inj (hcur.symm.trans hc)
      exact hr
  have hactive : ∀ c, σ.kernel.sched.currentThread = some c →
      (σ.kernel.sched.thread c).state = .running := by
    intro c hc
    obtain rfl := Option.some.inj (hcur.symm.trans hc)
    exact hr
  refine ⟨h.wf, h.free, h.depth, ?_, fun u hu hnu => ?_⟩
  · simp only [Machine.contextSwitch, hsus.owner]
    rcases hsus.frames with hnil | ⟨irq, rest', hcons, hb⟩
    · rw [hnil]
      exact ⟨hresting, fun c hc => .inr (.inl (hactive c hc))⟩
    · rw [hcons]
      exact ⟨⟨hresting, fun c hc => .inr (hactive c hc)⟩, hb⟩
  · simp only [Machine.contextSwitch, hsus.owner] at hnu ⊢
    by_cases hup : some u = prev
    · subst hup
      rw [Function.update_self]
      exact ⟨ho, .inr ⟨act.irq, rest, rfl, hbelow⟩⟩
    · rw [Function.update_of_ne hup]
      exact h.saved u hu fun he => hup (he.symm.trans ho)

theorem MachineOk.ret (h : MachineOk σ a) (hf : σ.frames = act :: rest) (hp : act.point = .ret) :
    Stacked σ.kernel.sched σ.pc a.run σ.owner rest := by
  have hstack := h.stack
  rw [hf] at hstack
  obtain ⟨p, irq⟩ := act
  obtain rfl : p = .ret := hp
  exact hstack.pop

theorem MachineOk.runYield (h : MachineOk σ a) (hf : σ.frames = act :: rest)
    (hs : σ.runYield act rest = .ok σ') : ∃ a', MachineOk σ' a' := by
  unfold Machine.runYield at hs
  simp only at hs
  split at hs
  next hp =>
    obtain ⟨-, -, hs⟩ := bind_ok hs
    obtain ⟨k, hreap, rfl⟩ := map_ok hs
    exact h.reap hf hp hreap
  next hp =>
    obtain ⟨next, hnext, rfl⟩ := map_ok hs
    exact ⟨a, h.select hf hp hnext⟩
  next hp => exact ⟨a, Except.ok.inj hs ▸ h.lock hf hp⟩
  next hp =>
    obtain ⟨s, hmark, rfl⟩ := map_ok hs
    rw [markPrev_eq] at hmark
    exact ⟨a, Except.ok.inj hmark ▸ h.markPrev hf hp⟩
  next hp =>
    obtain ⟨s, hset, rfl⟩ := map_ok hs
    exact ⟨a, h.setRunning hf hp hset⟩
  next hp => exact ⟨a, Except.ok.inj hs ▸ h.setCurrent hf hp⟩
  next hp => exact ⟨a, Except.ok.inj hs ▸ h.unlock hf hp⟩
  next prev next hp =>
    cases next with
    | none => cases hs
    | some t => exact ⟨a, Except.ok.inj hs ▸ h.contextSwitch hf hp⟩
  next hp =>
    have hpop := h.ret hf hp
    split at hs <;> obtain rfl := Except.ok.inj hs
    · exact ⟨a, h.wf, ⟨h.free.locked, h.free.depth⟩, h.depth, hpop, h.saved⟩
    · exact ⟨a, h.wf, h.free, h.depth, hpop, h.saved⟩

theorem MachineOk.step {action : MachineAction} (h : MachineOk σ a)
    (hadm : MachineAdmissible σ action) (hok : σ.QuietInGap action)
    (hs : σ.step action = .ok σ') : ∃ a', MachineOk σ' a' := by
  cases action with
  | interrupt events => exact h.interrupt hok hs
  | run call cond =>
    simp only [Machine.step] at hs
    split at hs
    next hf => exact h.runThread hf hadm hs
    next act rest hf => exact h.runYield hf hs

theorem MachineInitial.ok {run : List ThreadPtr} (h : MachineInitial σ run) :
    MachineOk σ ⟨run, fun _ => []⟩ := by
  have hinv : Inv false ⟨σ.kernel, σ.pc⟩ ⟨run, fun _ => []⟩ := h.system.inv
  refine ⟨hinv.base.wf, hinv.base.free, hinv.base.depth, ?_, fun t _ _ => ?_⟩
  · rw [h.frames]
    exact ⟨hinv.base.resting (h.owner.trans h.system.booted.current.symm), hinv.awake⟩
  · rw [h.saved]
    exact ⟨rfl, .inl rfl⟩

end

/-- The three safety conditions on a preempted `sched_yield`: `thread_set_running` gets a ready
thread of the run queue, `arch_context_switch` saves a stack pointer into the thread that owns
the stack, and the reaper does not release the thread on whose stack it runs. -/
structure Machine.Safe (σ : Machine) : Prop where
  running : ∀ act rest prev next, σ.frames = act :: rest → act.point = .setRunning prev next →
    ∃ t, next = some t ∧ (σ.kernel.sched.thread t).state = .ready ∧ OnRunQueue σ.kernel.sched t
  stack : ∀ act rest prev next, σ.frames = act :: rest → act.point = .switch prev next →
    σ.owner = prev
  reap : ∀ act rest, σ.frames = act :: rest → act.point = .reap → ∀ t k, σ.owner = some t →
    schedReapDeadThreads σ.kernel = .ok k → k.sched.allocated t = true

theorem MachineOk.safe {σ : Machine} {a : Shape} (h : MachineOk σ a) : σ.Safe := by
  refine ⟨fun act rest prev next hf hp => ?_, fun act rest prev next hf hp => ?_,
    fun act rest hf hp t k ho hk => ?_⟩
  · have hphase := (h.phase hf).1
    rw [hp] at hphase
    obtain ⟨-, -, -, -, t, ht, hn, -, hr⟩ := hphase
    exact ⟨t, hn, hr, h.wf.rep.onRunQueue.mpr ht⟩
  · have hphase := (h.phase hf).1
    rw [hp] at hphase
    exact hphase.2.1
  · have hrest := (h.phase hf).1
    rw [hp] at hrest
    obtain ⟨s', hok, hwf, hskel⟩ := h.wf.reap h.free
    obtain rfl := Except.ok.inj (hok.symm.trans hk)
    obtain ⟨-, hcur, -, -⟩ := (h.base hrest).reap hwf hskel
    exact (hwf.rep.allocated t).mpr (hwf.current t (hcur.trans (hrest.owner.symm.trans ho)))

/-- In every run in which no interrupt reschedules between the choice of the next thread and
the context switch, `sched_yield` is safe. -/
theorem quietInGap_safe {σ : Machine} (h : MachineReachable Machine.QuietInGap σ) : σ.Safe := by
  have hinv : ∃ a, MachineOk σ a := by
    refine Reach.invariant (I := fun σ => ∃ a, MachineOk σ a) h ?_ ?_
    · rintro σ ⟨run, hi⟩
      exact ⟨_, hi.ok⟩
    · rintro σ action σ' ⟨a, ha⟩ ⟨hadm, hok⟩ hs
      exact ha.step hadm hok hs
  obtain ⟨a, ha⟩ := hinv
  exact ha.safe

/-- A step of a thread that creates nothing, or an interrupt outside the gap or without a
reschedule. -/
def Machine.quietStep (σ : Machine) : MachineAction → Bool
  | .run call _ => call = .yield || call = .exit
  | .interrupt events => σ.frames.head?.all (fun act => !act.point.inGap) ||
      match σ.irqDecision events with
      | .ok (_, true) => false
      | _ => true

theorem Machine.quietStep_ok {σ : Machine} {action : MachineAction}
    (h : σ.quietStep action = true) : MachineAdmissible σ action ∧ σ.QuietInGap action := by
  cases action with
  | run call cond =>
    refine ⟨?_, trivial⟩
    simp only [quietStep, Bool.or_eq_true, decide_eq_true_eq] at h
    rcases h with rfl | rfl <;> trivial
  | interrupt events =>
    refine ⟨trivial, fun act rest hf hgap _ k hdec => ?_⟩
    simp [quietStep, hf, hgap, hdec] at h

/-- A tick interrupts thread 2 in its code and switches to thread 3, which yields back. Thread 2
then yields by itself, and the next tick arrives when it has chosen thread 3 and marked itself.
Last, thread 3 exits, and its final loop enters the reaper. -/
theorem quietInGap_safe_interrupted : ∃ σ τ υ : Machine,
    MachineReachable Machine.QuietInGap σ ∧
    σ.frames = [⟨.setRunning (some 2) (some 3), none⟩] ∧ σ.kernel.sched.needResched = true ∧
    (σ.kernel.sched.thread 3).state = .ready ∧ OnRunQueue σ.kernel.sched 3 ∧
    MachineReachable Machine.QuietInGap τ ∧ τ.frames = [⟨.switch (some 2) (some 3), none⟩] ∧
    τ.owner = some 2 ∧
    MachineReachable Machine.QuietInGap υ ∧ υ.frames = [⟨.reap, none⟩] ∧ υ.owner = some 3 ∧
    (υ.kernel.sched.thread 3).state = .zombie ∧
    ∀ k, schedReapDeadThreads υ.kernel = .ok k → k.sched.allocated 3 = true := by
  have hboot : Reach Machine.step (fun σ => ∃ run, MachineInitial σ run)
      (fun σ action => σ.quietStep action = true) (.boot [1, 2, 3] 1) :=
    .start ⟨[1, 2, 3], machineBoot_initial (by decide) (by decide)⟩
  have hquiet {σ : Machine} (h : Reach Machine.step (fun σ => ∃ run, MachineInitial σ run)
      (fun σ action => σ.quietStep action = true) σ) : MachineReachable Machine.QuietInGap σ :=
    h.mono fun _ _ => Machine.quietStep_ok
  let toGap : List MachineAction := List.replicate 9 (.run .yield false) ++ .interrupt [.tick] ::
    List.replicate 22 (.run .yield false) ++ [.interrupt [.tick], .run .yield false]
  obtain ⟨σ, hσ, hatσ⟩ := hboot.admitted_map
    (f := fun σ => (σ.frames, σ.kernel.sched.needResched)) toGap
    (b := ([⟨.setRunning (some 2) (some 3), none⟩], true)) rfl
  obtain ⟨τ, hτ, hatτ⟩ := hboot.admitted_map (f := Machine.frames)
    (toGap ++ List.replicate 3 (.run .yield false))
    (b := [⟨.switch (some 2) (some 3), none⟩]) rfl
  obtain ⟨υ, hυ, hatυ⟩ := hboot.admitted_map
    (f := fun σ => (σ.frames, σ.owner, (σ.kernel.sched.thread 3).state))
    (toGap ++ List.replicate 5 (.run .yield false) ++ [.run .exit false, .run .yield false])
    (b := ([⟨.reap, none⟩], some 3, .zombie)) rfl
  obtain ⟨hfσ, hresched⟩ := Prod.mk.inj hatσ
  simp only [Prod.mk.injEq] at hatυ
  obtain ⟨hfυ, howner, hzombie⟩ := hatυ
  obtain ⟨t, ht, hready, hmem⟩ := (quietInGap_safe (hquiet hσ)).running _ _ _ _ hfσ rfl
  obtain rfl := Option.some.inj ht
  exact ⟨σ, τ, υ, hquiet hσ, hfσ, hresched, hready, hmem, hquiet hτ, hatτ,
    (quietInGap_safe (hquiet hτ)).stack _ _ _ _ hatτ rfl, hquiet hυ, hfυ, howner, hzombie,
    fun k hk => (quietInGap_safe (hquiet hυ)).reap _ _ hfυ rfl 3 k howner hk⟩

/-- Thread 2 has chosen thread 3 when a tick arrives. The interrupt switches to thread 3, which
goes to sleep; back in thread 2, the interrupted call makes the sleeping thread running. -/
theorem chosen_thread_sleeping : ∃ σ, MachineReachable (fun _ _ => True) σ ∧ ¬ σ.Safe := by
  have hboot : MachineReachable (fun _ _ => True) (.boot [1, 2, 3] 1) :=
    machineBoot_reachable (by decide) (by decide)
  obtain ⟨σ, hr, hσ⟩ := Reach.exec_map (f := fun σ => (σ.frames, (σ.kernel.sched.thread 3).state))
    hboot (List.replicate 12 (.run .yield false) ++ .interrupt [.tick] ::
      List.replicate 8 (.run .yield false) ++ List.replicate 14 (.run (.sleep 5) false))
    (by simp [MachineAdmissible, Fresh])
    (b := ([⟨.setRunning (some 2) (some 3), none⟩], .sleeping)) rfl
  obtain ⟨hf, hst⟩ := Prod.mk.inj hσ
  refine ⟨σ, hr, fun hsafe => ?_⟩
  obtain ⟨t, ht, hready, -⟩ := hsafe.running _ _ _ _ hf rfl
  obtain rfl := Option.some.inj ht
  rw [hst] at hready
  cases hready

end Tianole.Sched
