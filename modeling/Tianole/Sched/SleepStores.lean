import Tianole.Sched.Sleep

/-! `sched_sleep` marks its caller with interrupts enabled: `thread_set_sleeping` writes the wake tick
and then the state. Here the two stores are two steps, and interrupts arrive in between. Sleepers
wake on time as long as none of these interrupts reschedules. -/
namespace Tianole.Sched
open Runs Word

/-! ### The two stores -/

/-- `thread->wake_tick = wake_tick`. -/
def Scheduler.setWakeTick (s : Scheduler) (t : ThreadPtr) (wakeTick : ℕ) : Scheduler :=
  s.modifyThread t fun x => { x with wakeTick := wakeTick }

/-- `thread->state = state`. -/
def Scheduler.setState (s : Scheduler) (t : ThreadPtr) (state : ThreadState) : Scheduler :=
  s.modifyThread t fun x => { x with state := state }

/-- The scheduler, and the threads that stand between the two stores. -/
structure Storing extends System where
  storing : ThreadPtr → Bool

namespace Storing

/-- `thread_set_sleeping` up to its first store. -/
def storeWakeTick (f : Storing) (c : ThreadPtr) (wakeTick : ℕ) : Except Stop Storing :=
  (threadValidateStateTransition f.kernel.sched (some c) .sleeping).map fun t =>
    { f with
      kernel := { f.kernel with sched := f.kernel.sched.setWakeTick t wakeTick }
      storing := Function.update f.storing c true }

/-- The second store. -/
def storeState (f : Storing) (c : ThreadPtr) : Storing where
  kernel := { f.kernel with sched := f.kernel.sched.setState c .sleeping }
  pc := movePc f.pc (some c) (.goto .sleepYield)
  storing := Function.update f.storing c false

/-- Any other step. -/
def advance (f : Storing) (act : Action) : Except Stop Storing :=
  (f.toSystem.step act).map fun σ => ⟨σ, f.storing⟩

/-- A step of the running thread. -/
def threadStep (f : Storing) (c : ThreadPtr) (call : Call) (cond : Bool) : Except Stop Storing :=
  if f.storing c then .ok (f.storeState c)
  else match f.halted, f.pc c with
    | false, .sleepMark wakeTick => f.storeWakeTick c wakeTick
    | _, _ => f.advance (.thread call cond)

def step (f : Storing) : Action → Except Stop Storing
  | .thread call cond =>
      match f.kernel.sched.currentThread with
      | some c => f.threadStep c call cond
      | none => f.advance (.thread call cond)
  | act => f.advance act

structure Initial (f : Storing) : Prop where
  system : ∃ run, Sched.Initial f.toSystem run
  storing : ∀ c, f.storing c = false

/-- The states of all runs whose steps are admissible and meet `ok`. -/
def Reachable (ok : Storing → Action → Prop) : Storing → Prop :=
  Reach step Initial fun f act => Admissible f.toSystem act ∧ ok f act

/-- No interrupt reschedules between the two stores. -/
def Undisturbed (f : Storing) (act : Action) : Prop :=
  ∀ c, f.kernel.sched.currentThread = some c → f.storing c = true → act = .irqExit →
    ¬ f.toSystem.Yields act

end Storing

/-- The runs from a call of `sched_sleep(n)` by thread `c` on, with the sum of `n` and the count that
it read. The thread is asleep from its second store to the first tick whose count reaches the
deadline. -/
inductive Storing.Sleeper (ok : Storing → Action → Prop) (c : ThreadPtr) (deadline : ℕ) :
    SleepPhase → Storing → Prop
  | call {f f' : Storing} {n : ℕ} {cond : Bool} : Storing.Reachable ok f →
      f.toSystem.Own c (.thread (.sleep n) cond) → f.pc c = .entry → 1 ≤ n →
      deadline = f.kernel.sched.tickCount + n → deadline < 2 ^ 64 →
      ok f (.thread (.sleep n) cond) → f.step (.thread (.sleep n) cond) = .ok f' →
      Sleeper ok c deadline .called f'
  | delay {f f' : Storing} {act : Action} : Sleeper ok c deadline .called f →
      Admissible f.toSystem act → ok f act → ¬ (f.toSystem.Own c act ∧ f.storing c = true) →
      f.step act = .ok f' → Sleeper ok c deadline .called f'
  | mark {f f' : Storing} {act : Action} : Sleeper ok c deadline .called f →
      Admissible f.toSystem act → ok f act → f.toSystem.Own c act → f.storing c = true →
      f.step act = .ok f' → Sleeper ok c deadline .asleep f'
  | early {f f' : Storing} {act : Action} : Sleeper ok c deadline .asleep f →
      Admissible f.toSystem act → ok f act → f.step act = .ok f' →
      (act = .tick → f'.kernel.sched.tickCount < deadline) → Sleeper ok c deadline .asleep f'
  | due {f f' : Storing} : Sleeper ok c deadline .asleep f → ok f .tick → f.step .tick = .ok f' →
      deadline ≤ f'.kernel.sched.tickCount → Sleeper ok c deadline .woken f'

/-! ### Interrupt handlers do not look at the wake tick of the running thread -/

section
variable {s : Scheduler} {c t u : ThreadPtr} {w : ℕ}

theorem setWakeTick_thread : (s.setWakeTick c w).thread u =
    if u = c then { s.thread c with wakeTick := w } else s.thread u :=
  Scheduler.modifyThread_thread _ _ _ _

theorem setWakeTick_of_ne (h : u ≠ c) : (s.setWakeTick c w).thread u = s.thread u := by
  rw [setWakeTick_thread, if_neg h]

/-- Every field but the wake tick is as it was. -/
theorem setWakeTick_field {β : Type} (g : Thread → β)
    (hg : ∀ x v, g { x with wakeTick := v } = g x) (u : ThreadPtr) :
    g ((s.setWakeTick c w).thread u) = g (s.thread u) := by
  rw [setWakeTick_thread]
  split
  next he => rw [hg, he]
  next => rfl

@[simp] theorem setWakeTick_state (u : ThreadPtr) :
    ((s.setWakeTick c w).thread u).state = (s.thread u).state :=
  setWakeTick_field Thread.state (fun _ _ => rfl) u

@[simp] theorem setWakeTick_next (u : ThreadPtr) :
    ((s.setWakeTick c w).thread u).next = (s.thread u).next :=
  setWakeTick_field Thread.next (fun _ _ => rfl) u

@[simp] theorem setWakeTick_waitNext (u : ThreadPtr) :
    ((s.setWakeTick c w).thread u).waitNext = (s.thread u).waitNext :=
  setWakeTick_field Thread.waitNext (fun _ _ => rfl) u

/-- Updates of other fields, or of other threads, commute with the store. -/
theorem setWakeTick_modifyThread {g : Thread → Thread}
    (hg : t ≠ c ∨ ∀ x, g { x with wakeTick := w } = { g x with wakeTick := w }) :
    (s.setWakeTick c w).modifyThread t g = (s.modifyThread t g).setWakeTick c w := by
  have hthread : ((s.setWakeTick c w).modifyThread t g).thread =
      ((s.modifyThread t g).setWakeTick c w).thread := by
    funext u
    simp only [Scheduler.modifyThread_thread, setWakeTick_thread]
    by_cases htc : t = c
    · subst htc
      rcases hg with hne | hg
      · exact absurd rfl hne
      · by_cases hu : u = t <;> simp [hu, hg]
    · by_cases hu : u = t
      · simp [hu, htc]
      · simp [hu, Ne.symm htc]
  simp only [Scheduler.modifyThread, Scheduler.setWakeTick] at hthread ⊢
  rw [hthread]

theorem represents_setWakeTick {a : Shape} (h : Represents s a) :
    Represents (s.setWakeTick c w) a :=
  h.congr (funext setWakeTick_next) (funext setWakeTick_waitNext) rfl rfl rfl
    (setWakeTick_field Thread.waitQueue fun _ _ => rfl) rfl rfl

/-- The timer reads the wake ticks of sleeping threads only. -/
theorem wakeExpired_setWakeTick (tick : ℕ) (run : List ThreadPtr)
    (hc : (s.thread c).state ≠ .sleeping) :
    (s.setWakeTick c w).wakeExpired tick run = (s.wakeExpired tick run).setWakeTick c w := by
  have hthread : ((s.setWakeTick c w).wakeExpired tick run).thread =
      ((s.wakeExpired tick run).setWakeTick c w).thread := by
    funext u
    simp only [Scheduler.wakeExpired, setWakeTick_thread]
    by_cases hu : u = c <;> simp [hu, hc]
  simp only [Scheduler.wakeExpired, Scheduler.setWakeTick, Scheduler.modifyThread] at hthread ⊢
  rw [hthread]

theorem timerTick_setWakeTick {a : Shape} (h : Represents s a)
    (hc : (s.thread c).state ≠ .sleeping) :
    timerTick (s.setWakeTick c w) = (timerTick s).map (·.setWakeTick c w) := by
  have hrunning (s : Scheduler) (p : Option ThreadPtr) :
      threadIsRunning (s.setWakeTick c w) p = threadIsRunning s p := by
    simp only [threadIsRunning, setWakeTick_state]
  have hwake := wakeExpired_setWakeTick (s := { s with tickCount := wrap64 (s.tickCount + 1) })
    (w := w) (wrap64 (s.tickCount + 1)) a.run hc
  rw [timerTick_eq (represents_setWakeTick h), timerTick_eq h]
  refine congrArg Except.ok ((congrArg (fun s : Scheduler => { s with
    needResched := s.needResched || threadIsRunning s s.currentThread }) hwake).trans ?_)
  simp only [hrunning]
  rfl

theorem removeHead_setWakeTick (q : QueuePtr) : waitQueueRemoveHeadLocked (s.setWakeTick c w) q =
    ((waitQueueRemoveHeadLocked s q).1.setWakeTick c w, (waitQueueRemoveHeadLocked s q).2) := by
  have hqueue : (s.setWakeTick c w).queue = s.queue := rfl
  simp only [waitQueueRemoveHeadLocked, hqueue]
  cases (s.queue q).head with
  | none => rfl
  | some t =>
    have hmodify (g : WaitQueue → WaitQueue) : (s.setWakeTick c w).modifyQueue q g =
      (s.modifyQueue q g).setWakeTick c w := rfl
    simp only [setWakeTick_waitNext, hmodify, Prod.mk.injEq, and_true]
    exact setWakeTick_modifyThread (.inr fun _ => rfl)

theorem removeHead_state (q : QueuePtr) :
    ((waitQueueRemoveHeadLocked s q).1.thread c).state = (s.thread c).state := by
  unfold waitQueueRemoveHeadLocked
  split
  next => rfl
  next t _ =>
    simp only [Scheduler.modifyThread_thread]
    split
    next he => rw [he]; rfl
    next => rfl

/-- A thread that is not blocked makes a wakeup panic, whatever its wake tick is. -/
theorem markReady_setWakeTick {p : Option ThreadPtr} (hc : ¬ Waitable s c) :
    waitQueueMarkReadyLocked (s.setWakeTick c w) p =
      (waitQueueMarkReadyLocked s p).map (·.setWakeTick c w) := by
  cases p with
  | none => rfl
  | some t =>
    have hwait : Waitable (s.setWakeTick c w) t ↔ Waitable s t := by
      simp only [Waitable, setWakeTick_state]
    rw [waitQueueMarkReadyLocked_eq, waitQueueMarkReadyLocked_eq]
    by_cases ht : Waitable s t
    · have hne : t ≠ c := by
        rintro rfl
        exact hc ht
      rw [if_pos (hwait.mpr ht), if_pos ht]
      exact congrArg Except.ok (setWakeTick_modifyThread (.inl hne))
    · rw [if_neg (mt hwait.mp ht), if_neg ht]
      rfl

theorem markReady_state {s' : Scheduler} {p : Option ThreadPtr} (hc : ¬ Waitable s c)
    (h : waitQueueMarkReadyLocked s p = .ok s') : (s'.thread c).state = (s.thread c).state := by
  cases p with
  | none => rw [← Except.ok.inj h]
  | some t =>
    rw [waitQueueMarkReadyLocked_eq] at h
    split at h
    next ht =>
      obtain rfl := Except.ok.inj h
      rw [withState_thread, if_neg]
      rintro rfl
      exact hc ht
    next => cases h

theorem wakeAllLoop_setWakeTick {q : QueuePtr} {n : ℕ} (hc : ¬ Waitable s c) :
    wakeAllLoop q n (s.setWakeTick c w) = (wakeAllLoop q n s).map (·.setWakeTick c w) := by
  have hqueue (s : Scheduler) : (s.setWakeTick c w).queue = s.queue := rfl
  induction n generalizing s with
  | zero =>
    simp only [wakeAllLoop, hqueue]
    split <;> rfl
  | succ n ih =>
    simp only [wakeAllLoop, hqueue, removeHead_setWakeTick, bind, Except.bind]
    split
    next => rfl
    next =>
      have hc' : ¬ Waitable (waitQueueRemoveHeadLocked s q).1 c := by
        simpa only [Waitable, removeHead_state] using hc
      rw [markReady_setWakeTick hc']
      cases hmark : waitQueueMarkReadyLocked (waitQueueRemoveHeadLocked s q).1
        (waitQueueRemoveHeadLocked s q).2 with
      | error e => rfl
      | ok s' =>
        refine ih ?_
        simpa only [Waitable, markReady_state hc' hmark] using hc'

theorem wakeLocked_setWakeTick (kind : WakeKind) (queue : Option QueuePtr) (hc : ¬ Waitable s c) :
    wakeLocked kind (s.setWakeTick c w) queue =
      (wakeLocked kind s queue).map (·.setWakeTick c w) := by
  cases kind with
  | all =>
    cases queue with
    | none => rfl
    | some q => exact wakeAllLoop_setWakeTick hc
  | one =>
    cases queue with
    | none => rfl
    | some q =>
      simp only [wakeLocked, waitQueueWakeOneLocked, removeHead_setWakeTick]
      refine markReady_setWakeTick ?_
      simpa only [Waitable, removeHead_state] using hc

theorem waitQueueWake_setWakeTick {locks : Locks} (kind : WakeKind) (queue : Option QueuePtr)
    (hc : ¬ Waitable s c) : waitQueueWake kind ⟨s.setWakeTick c w, locks⟩ queue =
      (waitQueueWake kind ⟨s, locks⟩ queue).map fun k => ⟨k.sched.setWakeTick c w, k.locks⟩ := by
  cases queue with
  | none => rfl
  | some q =>
    simp only [waitQueueWake, withLock, wakeLocked_setWakeTick kind _ hc, bind, Except.bind]
    cases spinLockIrqsave locks (.queue q) with
    | error e => rfl
    | ok l =>
      cases wakeLocked kind s (some q) with
      | error e => rfl
      | ok s' =>
        simp only [Except.map]
        cases spinUnlockIrqrestore l.1 (.queue q) l.2 <;> rfl

theorem setWakeTick_setWakeTick (v : ℕ) :
    (s.setWakeTick c v).setWakeTick c w = s.setWakeTick c w := by
  simp [Scheduler.setWakeTick, Scheduler.modifyThread]

theorem setWakeTick_self (h : (s.thread c).wakeTick = w) : s.setWakeTick c w = s := by
  subst h
  simp [Scheduler.setWakeTick, Scheduler.modifyThread]

theorem setState_eq (h : (s.thread c).wakeTick = w) (v : ℕ) :
    (s.setWakeTick c v).withState c .sleeping w = s.setState c .sleeping := by
  subst h
  simp [Scheduler.setWakeTick, Scheduler.setState, Scheduler.withState, Scheduler.modifyThread]

end

/-- The same system with another wake tick of thread `c`. -/
def System.setWakeTick (σ : System) (c : ThreadPtr) (w : ℕ) : System :=
  ⟨⟨σ.kernel.sched.setWakeTick c w, σ.kernel.locks⟩, σ.pc⟩

section
variable {σ σ' : System} {a : Shape} {c : ThreadPtr} {w : ℕ} {act : Action}

/-- An active thread has no wake tick. -/
theorem Inv.wakeTick_of_running (h : Inv false σ a) (hc : σ.kernel.sched.currentThread = some c)
    (hr : (σ.kernel.sched.thread c).state = .running) :
    (σ.kernel.sched.thread c).wakeTick = 0 := by
  by_contra hw
  have hs := (h.base.wf.threads c (h.base.wf.current c hc)).wake hw
  rw [hr] at hs
  cases hs

theorem System.yields_irqExit (hd : σ.kernel.sched.irqDepth = 0) : σ.Yields .irqExit ↔
    ¬ (!σ.kernel.sched.needResched || σ.kernel.sched.currentThread.isNone ||
      σ.kernel.sched.scheduleLocked) = true := by
  change (∃ s, schedIrqLeave (schedIrqEnter σ.kernel.sched) = .ok (s, true)) ↔ _
  rw [schedIrqLeave_enter hd]
  by_cases hstay : (!σ.kernel.sched.needResched || σ.kernel.sched.currentThread.isNone ||
      σ.kernel.sched.scheduleLocked) = true
  · rw [if_pos hstay]
    exact iff_of_false (fun ⟨s, hs⟩ => by cases hs) (not_not_intro hstay)
  · rw [if_neg hstay]
    exact iff_of_true ⟨_, rfl⟩ hstay

/-- The steps of an interrupt that returns to where it came from. -/
def Action.Returns (σ : System) (act : Action) : Prop :=
  (∀ call cond, act ≠ .thread call cond) ∧ ¬ σ.Yields act

/-- Such an interrupt leaves the running thread running. -/
theorem Inv.returns_running (h : Inv false σ a) (hact : act.Returns σ)
    (hr : (σ.kernel.sched.thread c).state = .running) (hs : σ.step act = .ok σ') :
    (σ'.kernel.sched.thread c).state = .running ∧ σ'.pc = σ.pc := by
  cases act with
  | thread call cond => exact absurd rfl (hact.1 call cond)
  | tick =>
    have hthread := (h.tick_thread hs).2 c
    obtain ⟨s, -, rfl⟩ := map_ok hs
    rw [if_neg (by simp [hr])] at hthread
    exact ⟨hthread ▸ hr, rfl⟩
  | wake kind queue =>
    obtain ⟨k, hw, rfl⟩ := map_ok hs
    obtain ⟨-, a', l, -, -, hskel, hl⟩ := waitQueueWake_wf h.base.free h.base.wf hw
    have hout : c ∉ l := fun hm => by
      have hwait := (hl c hm).1
      simp [Waitable, hr] at hwait
    refine ⟨?_, rfl⟩
    rw [wakeUp_state hskel, if_neg hout]
    exact hr
  | irqExit =>
    obtain ⟨k, hexit, rfl⟩ := map_ok hs
    obtain ⟨⟨s, resched⟩, hleave, hrest⟩ := bind_ok hexit
    cases resched with
    | true => exact absurd ⟨s, hleave⟩ hact.2
    | false =>
      obtain rfl := Except.ok.inj hrest
      obtain rfl := schedIrqLeave_ok h.base.depth hleave
      exact ⟨hr, rfl⟩

/-- It does not look at the wake tick of the running thread. -/
theorem Inv.step_setWakeTick (h : Inv false σ a) (hact : act.Returns σ)
    (hr : (σ.kernel.sched.thread c).state = .running) :
    (σ.setWakeTick c w).step act = (σ.step act).map (·.setWakeTick c w) := by
  cases act with
  | thread call cond => exact absurd rfl (hact.1 call cond)
  | tick =>
    have hawake : (σ.kernel.sched.thread c).state ≠ .sleeping := by simp [hr]
    simp only [System.step, System.setWakeTick, timerTick_setWakeTick h.base.wf.rep hawake]
    cases timerTick σ.kernel.sched <;> rfl
  | wake kind queue =>
    have hawake : ¬ Waitable σ.kernel.sched c := by simp [Waitable, hr]
    simp only [System.step, System.setWakeTick, waitQueueWake_setWakeTick kind queue hawake]
    cases waitQueueWake kind σ.kernel queue <;> rfl
  | irqExit =>
    have hstay := not_not.mp fun hn => hact.2 ((System.yields_irqExit h.base.depth).mpr hn)
    have hleave := schedIrqLeave_enter h.base.depth
    have hleave' : schedIrqLeave (schedIrqEnter (σ.kernel.sched.setWakeTick c w)) =
        .ok (σ.kernel.sched.setWakeTick c w, false) :=
      (schedIrqLeave_enter (s := σ.kernel.sched.setWakeTick c w) h.base.depth).trans (if_pos hstay)
    rw [if_pos hstay] at hleave
    simp only [System.step, System.setWakeTick, schedIrqExit, hleave, hleave', bind, Except.bind]
    rfl

end

/-! ### Such runs are runs of the system -/

namespace Storing

/-- The state as the system model has it: the first store of a call counts with the second one. -/
def settled (f : Storing) : System :=
  match f.kernel.sched.currentThread with
  | some c =>
      if f.storing c then f.toSystem.setWakeTick c 0 else f.toSystem
  | none => f.toSystem

/-- Only the running thread stands between its two stores, and it is in the running state. -/
structure Ok (f : Storing) : Prop where
  current : ∀ c, f.storing c = true → f.kernel.sched.currentThread = some c
  halted : ∀ c, f.storing c = true → f.halted = false
  running : ∀ c, f.storing c = true → (f.kernel.sched.thread c).state = .running
  point : ∀ c, f.storing c = true → f.pc c = .sleepMark (f.kernel.sched.thread c).wakeTick

/-- What a step is to the system model: the first store is nothing, the second one marks the
thread, and every other step is the same. -/
inductive StoreStep (f f' : Storing) : Action → Prop
  | first {c : ThreadPtr} {call : Call} {cond : Bool} :
      f.kernel.sched.currentThread = some c → f.storing c = false →
      (∃ w, f.pc c = .sleepMark w) → f'.settled = f.settled → StoreStep f f' (.thread call cond)
  | second {c : ThreadPtr} {call : Call} {cond : Bool} :
      f.kernel.sched.currentThread = some c → f.storing c = true →
      f.settled.step (.thread .yield false) = .ok f'.settled → StoreStep f f' (.thread call cond)
  | other {act : Action} : f.settled.step act = .ok f'.settled →
      (∀ call cond c, act = .thread call cond → f.kernel.sched.currentThread = some c →
        f.storing c = false ∧ (f.halted = false → ∀ w, f.pc c ≠ .sleepMark w)) →
      StoreStep f f' act

section
variable {f f' : Storing} {c : ThreadPtr} {act : Action} {a : Shape} {w : ℕ}

theorem settled_of_storing (hc : f.kernel.sched.currentThread = some c) (hs : f.storing c = true) :
    f.settled = f.toSystem.setWakeTick c 0 := by
  simp [settled, hc, hs]

theorem toSystem_of_storing (hc : f.kernel.sched.currentThread = some c)
    (hs : f.storing c = true) :
    f.toSystem = f.settled.setWakeTick c (f.kernel.sched.thread c).wakeTick := by
  rw [settled_of_storing hc hs, System.setWakeTick, System.setWakeTick, setWakeTick_setWakeTick,
    setWakeTick_self rfl]

theorem settled_of_quiet (h : ∀ c, f.kernel.sched.currentThread = some c → f.storing c = false) :
    f.settled = f.toSystem := by
  unfold settled
  split
  next c hc => simp [h c hc]
  next => rfl

theorem settled_cases (f : Storing) : f.settled = f.toSystem ∨ ∃ c,
    f.kernel.sched.currentThread = some c ∧ f.storing c = true ∧
      f.settled = f.toSystem.setWakeTick c 0 := by
  by_cases h : ∃ c, f.kernel.sched.currentThread = some c ∧ f.storing c = true
  · obtain ⟨c, hc, hs⟩ := h
    exact .inr ⟨c, hc, hs, settled_of_storing hc hs⟩
  · refine .inl (settled_of_quiet fun c hc => ?_)
    simpa using fun hs => h ⟨c, hc, hs⟩

@[simp] theorem settled_pc (f : Storing) : f.settled.pc = f.pc := by
  rcases f.settled_cases with h | ⟨c, -, -, h⟩ <;> rw [h]
  rfl

@[simp] theorem settled_currentThread (f : Storing) :
    f.settled.kernel.sched.currentThread = f.kernel.sched.currentThread := by
  rcases f.settled_cases with h | ⟨c, -, -, h⟩ <;> rw [h]
  rfl

@[simp] theorem settled_tickCount (f : Storing) :
    f.settled.kernel.sched.tickCount = f.kernel.sched.tickCount := by
  rcases f.settled_cases with h | ⟨c, -, -, h⟩ <;> rw [h]
  rfl

@[simp] theorem settled_halted (f : Storing) : f.settled.halted = f.halted := by
  rcases f.settled_cases with h | ⟨c, -, -, h⟩ <;> rw [h]
  rfl

theorem settled_state (f : Storing) (u : ThreadPtr) :
    (f.settled.kernel.sched.thread u).state = (f.kernel.sched.thread u).state := by
  rcases f.settled_cases with h | ⟨c, -, -, h⟩ <;> rw [h]
  exact setWakeTick_state u

theorem settled_thread (f : Storing) (hu : f.storing c = false) :
    f.settled.kernel.sched.thread c = f.kernel.sched.thread c := by
  rcases f.settled_cases with h | ⟨d, -, hd, h⟩ <;> rw [h]
  refine setWakeTick_of_ne ?_
  rintro rfl
  rw [hu] at hd
  cases hd

theorem admissible_settled (h : Admissible f.toSystem act) : Admissible f.settled act := by
  cases act with
  | thread call cond =>
    rcases f.settled_cases with he | ⟨c, -, -, he⟩ <;> rw [he]
    · exact h
    · cases call <;> exact h
  | tick | wake _ _ | irqExit => trivial

theorem Ok.none_storing (h : f.Ok)
    (hc : ∀ c, f.kernel.sched.currentThread = some c → f.storing c = false) (c : ThreadPtr) :
    f.storing c = false := by
  by_contra hs
  have hs' : f.storing c = true := by simpa using hs
  rw [hc c (h.current c hs')] at hs'
  cases hs'

theorem Ok.none_of_current (h : f.Ok) (hc : f.kernel.sched.currentThread = some c)
    (hst : f.storing c = false) : ∀ d, f.storing d = false :=
  h.none_storing fun _ hd => Option.some.inj (hc.symm.trans hd) ▸ hst

theorem ok_of_none (h : ∀ c, f.storing c = false) : f.Ok :=
  ⟨by simp [h], by simp [h], by simp [h], by simp [h]⟩

/-- While no thread stands between its stores, the two models step alike. -/
theorem advance_quiet (hnone : ∀ c, f.storing c = false) (hs : f.advance act = .ok f') :
    f'.Ok ∧ f.settled.step act = .ok f'.settled := by
  obtain ⟨σ, hσ, rfl⟩ := map_ok hs
  refine ⟨ok_of_none hnone, ?_⟩
  rw [settled_of_quiet fun c _ => hnone c, hσ]
  exact congrArg Except.ok (settled_of_quiet (f := ⟨σ, f.storing⟩) fun c _ => hnone c).symm

/-- An interrupt between the two stores does what it does before them. -/
theorem Ok.advance_storing (h : f.Ok) (hinv : Inv false f.settled a)
    (hc : f.kernel.sched.currentThread = some c) (hst : f.storing c = true)
    (hact : act.Returns f.settled) (hadm : Admissible f.settled act)
    (hs : f.advance act = .ok f') : f'.Ok ∧ f.settled.step act = .ok f'.settled := by
  have hrunning : (f.settled.kernel.sched.thread c).state = .running :=
    (settled_state f c).trans (h.running c hst)
  obtain ⟨τ, hτ, rfl⟩ := map_ok hs
  rw [toSystem_of_storing hc hst, hinv.step_setWakeTick hact hrunning] at hτ
  obtain ⟨σ', hσ', rfl⟩ := map_ok hτ
  obtain ⟨hrunning', hpc⟩ := hinv.returns_running hact hrunning hσ'
  obtain ⟨a', hinv', hcase⟩ := hinv.step_cases hadm hσ'
  obtain ⟨hidle, hcur⟩ := hcase.switching hinv hadm
  have hcur' : σ'.kernel.sched.currentThread = some c :=
    (hcur hact.2).trans ((settled_currentThread f).trans hc)
  have hzero := hinv'.wakeTick_of_running hcur' hrunning'
  have hsame {d : ThreadPtr} (hd : f.storing d = true) : d = c :=
    Option.some.inj ((h.current d hd).symm.trans hc)
  have hhalted : σ'.halted = false := by
    have hold := (settled_halted f).trans (h.halted c hst)
    unfold System.halted at hold ⊢
    rw [hcur', hidle, ← (settled_currentThread f).trans hc]
    exact hold
  refine ⟨⟨fun d hd => ?_, fun d hd => hhalted, fun d hd => ?_, fun d hd => ?_⟩, ?_⟩
  · rw [hsame hd]
    exact hcur'
  · rw [hsame hd]
    exact (setWakeTick_state c).trans hrunning'
  · rw [hsame hd]
    change σ'.pc c = .sleepMark ((σ'.kernel.sched.setWakeTick c _).thread c).wakeTick
    rw [setWakeTick_thread, if_pos rfl, hpc, settled_pc]
    exact h.point c hst
  · have hsettled := settled_of_storing (c := c) (f := ⟨σ'.setWakeTick c
      (f.kernel.sched.thread c).wakeTick, f.storing⟩) hcur' hst
    rw [hσ', hsettled, System.setWakeTick, System.setWakeTick, setWakeTick_setWakeTick,
      setWakeTick_self hzero]

/-- The first store is nothing to the system model. -/
theorem Ok.first (h : f.Ok) (hinv : Inv false f.settled a)
    (hc : f.kernel.sched.currentThread = some c) (hst : f.storing c = false)
    (hh : f.halted = false) (hpc : f.pc c = .sleepMark w)
    (hs : f.storeWakeTick c w = .ok f') : f'.Ok ∧ f'.settled = f.settled := by
  have hnone := h.none_of_current hc hst
  have hquiet : f.settled = f.toSystem := settled_of_quiet fun d _ => hnone d
  obtain ⟨t, hvalid, rfl⟩ := map_ok hs
  unfold threadValidateStateTransition at hvalid
  simp only at hvalid
  split at hvalid
  next hallowed =>
    obtain rfl := Except.ok.inj hvalid
    have hrunning : (f.kernel.sched.thread c).state = .running := by
      rw [hquiet] at hinv
      rcases (hinv.plain (hinv.base.wf.current c hc) (.inr ⟨w, hpc⟩)).active with hr | hr
      · simp [hr, threadStateTransitionIsValid] at hallowed
      · exact hr
    have honly {d : ThreadPtr} (hd : Function.update f.storing c true d = true) : d = c := by
      by_contra hne
      rw [Function.update_of_ne hne, hnone d] at hd
      cases hd
    refine ⟨⟨fun d hd => ?_, fun d hd => hh, fun d hd => ?_, fun d hd => ?_⟩, ?_⟩
    · rw [honly hd]
      exact hc
    · rw [honly hd]
      exact (setWakeTick_state c).trans hrunning
    · rw [honly hd]
      change f.pc c = .sleepMark ((f.kernel.sched.setWakeTick c w).thread c).wakeTick
      rw [setWakeTick_thread, if_pos rfl, hpc]
    · have hzero : (f.kernel.sched.thread c).wakeTick = 0 := by
        rw [hquiet] at hinv
        exact hinv.wakeTick_of_running hc hrunning
      refine Eq.trans (settled_of_storing ?_ (Function.update_self c true f.storing)) ?_
      · exact hc
      rw [hquiet, System.setWakeTick, setWakeTick_setWakeTick, setWakeTick_self hzero]
  next => cases hvalid

/-- The second store is the step that marks the thread. -/
theorem Ok.second (h : f.Ok) (hc : f.kernel.sched.currentThread = some c)
    (hst : f.storing c = true) :
    (f.storeState c).Ok ∧ f.settled.step (.thread .yield false) = .ok (f.storeState c).settled := by
  have hnone (d : ThreadPtr) : (f.storeState c).storing d = false := by
    by_cases hd : d = c
    · subst hd
      exact Function.update_self _ _ _
    · refine (Function.update_of_ne hd _ _).trans ?_
      by_contra hs
      have hcur := h.current d (by simpa using hs)
      exact hd (Option.some.inj (hcur.symm.trans hc))
  refine ⟨ok_of_none hnone, ?_⟩
  rw [settled_of_quiet (f := f.storeState c) fun d _ => hnone d]
  have hhalted : f.settled.halted = false := (settled_halted f).trans (h.halted c hst)
  have hcur : f.settled.kernel.sched.currentThread = some c := (settled_currentThread f).trans hc
  have hpoint : f.settled.point = .sleepMark (f.kernel.sched.thread c).wakeTick := by
    rw [System.point, hcur, settled_pc]
    exact h.point c hst
  have hvalid : threadStateTransitionIsValid (f.settled.kernel.sched.thread c).state .sleeping =
      true := by
    rw [settled_state, h.running c hst]
    rfl
  simp only [System.step, hhalted, Bool.false_eq_true, ↓reduceIte, hpoint, Sched.threadStep, hcur,
    threadSetSleeping, threadSetWith_some, hvalid, bind, Except.bind, pure, Except.pure,
    System.finish, settled_pc]
  rw [settled_of_storing hc hst]
  simp only [System.setWakeTick, setState_eq rfl]
  rfl

theorem Ok.step (h : f.Ok) (hinv : Inv false f.settled a) (hadm : Admissible f.toSystem act)
    (hok : f.Undisturbed act) (hs : f.step act = .ok f') : f'.Ok ∧ StoreStep f f' act := by
  have hadm' := admissible_settled hadm
  -- A step that is not one of the thread: nobody stands between the stores, or an interrupt.
  have hinterrupt (hact : ∀ call cond, act ≠ .thread call cond) (hs : f.advance act = .ok f') :
      f'.Ok ∧ StoreStep f f' act := by
    suffices hstep : f'.Ok ∧ f.settled.step act = .ok f'.settled by
      exact ⟨hstep.1, .other hstep.2 fun call cond c he => absurd he (hact call cond)⟩
    by_cases hany : ∃ c, f.kernel.sched.currentThread = some c ∧ f.storing c = true
    · obtain ⟨c, hc, hst⟩ := hany
      refine h.advance_storing hinv hc hst ⟨hact, fun hy => ?_⟩ hadm' hs
      cases act with
      | thread call cond => exact hact call cond rfl
      | tick | wake _ _ => exact hy
      | irqExit =>
        refine hok c hc hst rfl ?_
        rw [settled_of_storing hc hst] at hy hinv
        have hd : f.kernel.sched.irqDepth = 0 := hinv.base.depth
        exact (System.yields_irqExit hd).mpr ((System.yields_irqExit hinv.base.depth).mp hy)
    · refine advance_quiet (h.none_storing fun c hc => ?_) hs
      simpa using fun hst => hany ⟨c, hc, hst⟩
  cases act with
  | tick | wake _ _ | irqExit => exact hinterrupt (by simp) hs
  | thread call cond =>
    simp only [Storing.step] at hs
    split at hs
    next c hc =>
      unfold Storing.threadStep at hs
      split at hs
      next hst =>
        obtain rfl := Except.ok.inj hs
        obtain ⟨hok', hstep⟩ := h.second hc hst
        exact ⟨hok', .second hc hst hstep⟩
      next hst =>
        replace hst : f.storing c = false := by simpa using hst
        split at hs
        next w hh hpc =>
          obtain ⟨hok', hsame⟩ := h.first hinv hc hst hh hpc hs
          exact ⟨hok', .first hc hst ⟨w, hpc⟩ hsame⟩
        next hother =>
          have hnone := h.none_of_current hc hst
          obtain ⟨hok', hstep⟩ := advance_quiet hnone hs
          refine ⟨hok', .other hstep fun call' cond' d _ hd => ⟨hnone d, fun hh w hpc => ?_⟩⟩
          obtain rfl := Option.some.inj (hc.symm.trans hd)
          exact hother w hh hpc
    next hc =>
      have hnone : ∀ d, f.storing d = false := h.none_storing fun d hd => by
        rw [hc] at hd
        cases hd
      obtain ⟨hok', hstep⟩ := advance_quiet hnone hs
      refine ⟨hok', .other hstep fun call' cond' d _ hd => ?_⟩
      rw [hc] at hd
      cases hd

theorem admissible_yield (σ : System) : Admissible σ (.thread .yield false) := trivial

theorem admissible_sleep (σ : System) (n : ℕ) (cond : Bool) :
    Admissible σ (.thread (.sleep n) cond) := trivial

theorem admissible_tick (σ : System) : Admissible σ .tick := trivial

theorem StoreStep.reachable (hstep : StoreStep f f' act) (hadm : Admissible f.toSystem act)
    (hr : Sched.Reachable (fun _ _ => True) f.settled) :
    Sched.Reachable (fun _ _ => True) f'.settled := by
  cases hstep with
  | first _ _ _ hsame => exact hsame ▸ hr
  | second _ _ hs => exact .next hr ⟨admissible_yield _, trivial⟩ hs
  | other hs => exact .next hr ⟨admissible_settled hadm, trivial⟩ hs

/-- Every undisturbed run is one of the system model. -/
theorem Reachable.settled (h : Storing.Reachable Undisturbed f) :
    f.Ok ∧ Sched.Reachable (fun _ _ => True) f.settled := by
  refine Reach.invariant (I := fun f : Storing =>
    f.Ok ∧ Sched.Reachable (fun _ _ => True) f.settled) h (fun f hi => ?_) ?_
  · refine ⟨ok_of_none hi.storing, ?_⟩
    rw [settled_of_quiet fun c _ => hi.storing c]
    exact .start hi.system
  · rintro f act f' ⟨hok, hr⟩ ⟨hadm, hund⟩ hs
    obtain ⟨a, hinv⟩ := reachable_inv false hr (by simp)
    obtain ⟨hok', hstep⟩ := hok.step hinv hadm hund hs
    exact ⟨hok', hstep.reachable hadm hr⟩

theorem own_settled : f.settled.Own c act ↔ f.toSystem.Own c act := by
  simp only [System.Own, settled_currentThread, settled_halted]

/-- A sleeper of an undisturbed run is one of the system model. -/
theorem Sleeper.settled {deadline : ℕ} {phase : SleepPhase}
    (h : Storing.Sleeper Undisturbed c deadline phase f) :
    f.Ok ∧ Sched.Sleeper c deadline phase f.settled := by
  induction h with
  | call hr hown hpc hn hd hlt hund hs =>
    obtain ⟨hok, hr⟩ := hr.settled
    obtain ⟨a, hinv⟩ := reachable_inv false hr (by simp)
    obtain ⟨hok', hstep⟩ := hok.step hinv (admissible_sleep _ _ _) hund hs
    refine ⟨hok', ?_⟩
    cases hstep with
    | first hc _ hmark =>
      obtain ⟨w, hmark⟩ := hmark
      obtain rfl := Option.some.inj (hown.1.symm.trans hc)
      rw [hpc] at hmark
      cases hmark
    | second hc hst =>
      have hmark := hok.point _ hst
      obtain rfl := Option.some.inj (hown.1.symm.trans hc)
      rw [hpc] at hmark
      cases hmark
    | other hsystem =>
      exact .call hr (own_settled.mpr hown) (by rw [settled_pc]; exact hpc) hn
        (by rw [settled_tickCount]; exact hd) hlt hsystem
  | delay _ hadm hund hown hs ih =>
    obtain ⟨hok, hsleeper⟩ := ih
    obtain ⟨a, hinv, -, hfit⟩ := hsleeper.fits
    obtain ⟨hok', hstep⟩ := hok.step hinv hadm hund hs
    refine ⟨hok', ?_⟩
    cases hstep with
    | first _ _ _ hsame => exact hsame ▸ hsleeper
    | second hc hst hsystem =>
      refine .delay hsleeper (admissible_yield _) (fun ho => ?_) hsystem
      obtain ⟨hcur, hh, -⟩ := own_settled.mp ho
      obtain rfl := Option.some.inj (hc.symm.trans hcur)
      exact hown ⟨⟨hcur, hh, _, _, rfl⟩, hst⟩
    | other hsystem hside =>
      refine .delay hsleeper (admissible_settled hadm) (fun ho => ?_) hsystem
      obtain ⟨hcur, hh, call, cond, he⟩ := own_settled.mp ho
      have hpc : _ = Pc.sleepMark _ := hfit
      rw [settled_pc] at hpc
      exact (hside call cond c he hcur).2 hh _ hpc
  | mark _ hadm hund hown hst hs ih =>
    obtain ⟨hok, hsleeper⟩ := ih
    obtain ⟨a, hinv, -, -⟩ := hsleeper.fits
    obtain ⟨hok', hstep⟩ := hok.step hinv hadm hund hs
    refine ⟨hok', ?_⟩
    cases hstep with
    | first hc hfirst =>
      obtain rfl := Option.some.inj (hc.symm.trans hown.1)
      rw [hst] at hfirst
      cases hfirst
    | second _ _ hsystem =>
      exact .mark hsleeper (admissible_yield _)
        (own_settled.mpr ⟨hown.1, hown.2.1, _, _, rfl⟩) hsystem
    | other _ hside =>
      obtain ⟨hcur, -, call, cond, he⟩ := hown
      have hnot := (hside call cond c he hcur).1
      rw [hst] at hnot
      cases hnot
  | early _ hadm hund hs hcount ih =>
    obtain ⟨hok, hsleeper⟩ := ih
    obtain ⟨a, hinv, -, -⟩ := hsleeper.fits
    obtain ⟨hok', hstep⟩ := hok.step hinv hadm hund hs
    refine ⟨hok', ?_⟩
    cases hstep with
    | first _ _ _ hsame => exact hsame ▸ hsleeper
    | second _ _ hsystem => exact .early hsleeper (admissible_yield _) hsystem (by simp)
    | other hsystem =>
      exact .early hsleeper (admissible_settled hadm) hsystem
        fun ht => (settled_tickCount _).trans_lt (hcount ht)
  | due _ hund hs hcount ih =>
    obtain ⟨hok, hsleeper⟩ := ih
    obtain ⟨a, hinv, -, -⟩ := hsleeper.fits
    obtain ⟨hok', hstep⟩ := hok.step hinv (admissible_tick _) hund hs
    refine ⟨hok', ?_⟩
    cases hstep with
    | other hsystem => exact .due hsleeper hsystem (hcount.trans_eq (settled_tickCount _).symm)

/-- A thread that is not in the running state does not stand between its stores. -/
theorem Ok.thread_of_state (h : f.Ok)
    (hs : (f.settled.kernel.sched.thread c).state ≠ .running) :
    f.settled.kernel.sched.thread c = f.kernel.sched.thread c := by
  refine settled_thread f ?_
  by_contra hst
  exact hs ((settled_state f c).trans (h.running c (by simpa using hst)))

theorem Ok.tick_ok (h : f.Ok) (hinv : Inv false f.settled a) : ∃ f', f.step .tick = .ok f' := by
  obtain ⟨σ, hσ⟩ := hinv.tick_ok
  rcases f.settled_cases with he | ⟨c, hc, hst, he⟩
  · rw [he] at hσ
    exact ⟨⟨σ, f.storing⟩, congrArg (Except.map _) hσ⟩
  · have hrunning : (f.settled.kernel.sched.thread c).state = .running :=
      (settled_state f c).trans (h.running c hst)
    have hreturns : Action.tick.Returns f.settled := ⟨by simp, id⟩
    have hstep := hinv.step_setWakeTick (w := (f.kernel.sched.thread c).wakeTick) hreturns hrunning
    rw [hσ, ← toSystem_of_storing hc hst] at hstep
    exact ⟨_, congrArg (Except.map _) hstep⟩

/-- A tick leaves a thread between its stores alone. -/
theorem Ok.tick_storing (h : f.Ok) (h' : f'.Ok) (hs : f.step .tick = .ok f')
    (hst : f.storing c = true) :
    (f'.kernel.sched.thread c).state = (f.kernel.sched.thread c).state ∧
      (f'.kernel.sched.thread c).wakeTick = (f.kernel.sched.thread c).wakeTick := by
  obtain ⟨σ, hσ, rfl⟩ := map_ok hs
  obtain ⟨s, -, rfl⟩ := map_ok hσ
  refine ⟨(h'.running c hst).trans (h.running c hst).symm, ?_⟩
  exact Pc.sleepMark.inj ((h'.point c hst).symm.trans (h.point c hst))

end
end Storing

/-- Boot with the given thread objects, one of them for the idle thread. -/
def Storing.boot (objects : List ThreadPtr) (idle : ThreadPtr) : Storing :=
  ⟨System.boot objects idle, fun _ => false⟩

theorem Storing.boot_reachable {ok : Storing → Action → Prop} {objects : List ThreadPtr}
    {idle : ThreadPtr} (hn : objects.Nodup) (hi : idle ∈ objects) :
    Storing.Reachable ok (.boot objects idle) :=
  .start ⟨⟨objects, boot_initial hn hi⟩, fun _ => rfl⟩

/-- What the runs below look at. -/
def Storing.info (f : Storing) : Option ThreadPtr × Bool × Pc × Bool × ℕ :=
  (f.kernel.sched.currentThread, f.halted, f.pc 2, f.storing 2, f.kernel.sched.tickCount)

end Tianole.Sched
