import Tianole.Sched.Steps

/-! The scheduler as a system: threads and interrupts take turns, and `sched_yield` is one
step. The invariant of its reachable states. -/
namespace Tianole.Sched
open Runs Links

structure System where
  kernel : Kernel
  pc : ThreadPtr → Pc

/-- A step of the running context, or an interrupt: one timer tick, one wakeup (which is
what `queue_work` does to the scheduler), or the end of an interrupt with its reschedule. -/
inductive Action where
  | thread (call : Call) (cond : Bool)
  | tick
  | wake (kind : WakeKind) (queue : Option QueuePtr)
  | irqExit
  deriving DecidableEq, Repr

namespace System

/-- The point of the running context; the boot context has no thread object. -/
def point (σ : System) : Pc :=
  match σ.kernel.sched.currentThread with
  | some c => σ.pc c
  | none => .entry

/-- The idle thread only executes `hlt`. -/
def halted (σ : System) : Bool :=
  σ.kernel.sched.currentThread.isSome && σ.kernel.sched.currentThread = σ.kernel.sched.idleThread

/-- The end of a thread step: move the program points, and yield where the step asks for it. -/
def finish (σ : System) (k : Kernel) (control : Control) : Except Stop System :=
  let pc := movePc σ.pc σ.kernel.sched.currentThread control
  match control with
  | .yieldTo _ => (schedYield k).map fun k => ⟨k, pc⟩
  | _ => .ok ⟨k, pc⟩

def step (σ : System) : Action → Except Stop System
  | .thread call cond =>
      if σ.halted then .ok σ
      else (threadStep σ.kernel σ.point call cond).bind fun r => σ.finish r.1 r.2
  | .tick => (timerTick σ.kernel.sched).map fun s => ⟨⟨s, σ.kernel.locks⟩, σ.pc⟩
  | .wake kind queue => (waitQueueWake kind σ.kernel queue).map fun k => ⟨k, σ.pc⟩
  | .irqExit =>
      (schedIrqExit ⟨schedIrqEnter σ.kernel.sched, σ.kernel.locks⟩).map fun k => ⟨k, σ.pc⟩

end System

/-- Creation is given a fresh object. -/
def Admissible (σ : System) : Action → Prop
  | .thread call _ => Fresh σ.kernel.sched call
  | _ => True

/-! ### Initial states -/

/-- A scheduler on which threads have only been created. -/
structure Booted (s : Scheduler) (run : List ThreadPtr) : Prop where
  rep : Represents s ⟨run, fun _ => []⟩
  ready : ∀ t ∈ run, (s.thread t).state = .ready
  wakeTick : ∀ t ∈ run, (s.thread t).wakeTick = 0
  stack : ∀ t ∈ run, (s.thread t).stackBase ≠ 0 ∧ (s.thread t).stackSize ≠ 0
  current : s.currentThread = none
  unlocked : s.scheduleLocked = false
  depth : s.irqDepth = 0

/-- The state in which `sched_start` leaves the scheduler: every thread created so far is
ready, the idle thread among them, and the boot context is running. -/
structure Initial (σ : System) (run : List ThreadPtr) : Prop where
  booted : Booted σ.kernel.sched run
  entry : ∀ t ∈ run, σ.pc t = .entry
  idle : ∃ i ∈ run, σ.kernel.sched.idleThread = some i
  free : σ.kernel.locks.Free

/-- The scheduler after `sched_init`. -/
def bootScheduler : Scheduler where
  thread _ := ⟨0, .ready, 0, 0, 0, 0, none, none, none⟩
  queue _ := ⟨none, none⟩
  runQueueHead := none
  runQueueTail := none
  currentThread := none
  idleThread := none
  nextThreadId := 1
  scheduleLocked := false
  needResched := false
  irqDepth := 0
  tickCount := 0
  allocated _ := false
  created := 0

def bootLocks : Locks := ⟨true, fun _ => false, 0⟩

/-- Creation of one thread with a non-null entry and stack. -/
def bootCreate (s : Scheduler) (t : ThreadPtr) : Scheduler := enqueueThread (initThread s t 1 1) t

/-- Boot with the given thread objects, one of them for the idle thread. -/
def System.boot (objects : List ThreadPtr) (idle : ThreadPtr) : System :=
  ⟨⟨{ objects.foldl bootCreate bootScheduler with idleThread := some idle }, bootLocks⟩,
    fun _ => .entry⟩

/-- Creation keeps the start-up state. -/
theorem Booted.create {s : Scheduler} {run : List ThreadPtr} {t : ThreadPtr} {entry stack : ℕ}
    (h : Booted s run) (ht : t ∉ run) (hstack : stack ≠ 0) :
    Booted (enqueueThread (initThread s t entry stack) t) (run ++ [t]) := by
  set s' := enqueueThread (initThread s t entry stack) t
  have hskel : s'.skeleton = (initThread s t entry stack).skeleton :=
    enqueueInit_skeleton entry stack
  have hfield {β : Type} (g : Scheduler → β) : g s'.skeleton =
    g (initThread s t entry stack).skeleton := congrArg g hskel
  have hthread {β : Type} (g : Thread → β) (u : ThreadPtr) :
      g (s'.skeleton.thread u) = g ((initThread s t entry stack).skeleton.thread u) :=
    hfield fun s => g (s.thread u)
  have hold : ∀ u ∈ run, (initThread s t entry stack).thread u = s.thread u := fun u hu =>
    Function.update_of_ne (by rintro rfl; exact ht hu) _ _
  have hnew : (initThread s t entry stack).thread t =
      ⟨s.nextThreadId, .ready, entry, stack, kernelStackSize, 0, none, none, none⟩ :=
    Function.update_self _ _ _
  refine ⟨initThread_represents h.rep ht entry stack, fun u hu => ?_, fun u hu => ?_, fun u hu => ?_,
    (hfield Scheduler.currentThread).trans h.current,
    (hfield Scheduler.scheduleLocked).trans h.unlocked,
    (hfield Scheduler.irqDepth).trans h.depth⟩
  · refine (hthread Thread.state u).trans ?_
    rw [skeleton_state]
    rcases List.mem_append.mp hu with hu | hu
    · rw [hold u hu]; exact h.ready u hu
    · rw [List.mem_singleton.mp hu, hnew]
  · refine (hthread Thread.wakeTick u).trans ?_
    rw [skeleton_wakeTick]
    rcases List.mem_append.mp hu with hu | hu
    · rw [hold u hu]; exact h.wakeTick u hu
    · rw [List.mem_singleton.mp hu, hnew]
  · have hb : (s'.thread u).stackBase = ((initThread s t entry stack).thread u).stackBase :=
      hthread Thread.stackBase u
    have hs : (s'.thread u).stackSize = ((initThread s t entry stack).thread u).stackSize :=
      hthread Thread.stackSize u
    rw [hb, hs]
    rcases List.mem_append.mp hu with hu | hu
    · rw [hold u hu]; exact h.stack u hu
    · rw [List.mem_singleton.mp hu, hnew]
      simpa [kernelStackSize] using hstack

theorem bootCreate_booted {s : Scheduler} {run : List ThreadPtr} {t : ThreadPtr}
    (h : Booted s run) (ht : t ∉ run) : Booted (bootCreate s t) (run ++ [t]) :=
  h.create ht Nat.one_ne_zero

theorem bootScheduler_booted : Booted bootScheduler [] :=
  ⟨⟨rfl, rfl, fun _ => rfl, fun _ => rfl, by simp, by simp, by simp, by simp [bootScheduler],
    by simp⟩, by simp, by simp, by simp, rfl, rfl, rfl⟩

theorem foldl_booted {objects run : List ThreadPtr} {s : Scheduler} (h : Booted s run)
    (hn : (run ++ objects).Nodup) : Booted (objects.foldl bootCreate s) (run ++ objects) := by
  induction objects generalizing s run with
  | nil => simpa using h
  | cons t objects ih =>
    have ht : t ∉ run := fun hm => (List.nodup_append.mp hn).2.2 t hm t (by simp) rfl
    have hlist : run ++ t :: objects = run ++ [t] ++ objects := by simp
    rw [hlist] at hn ⊢
    exact ih (bootCreate_booted h ht) hn

/-- Booting with distinct objects gives an initial state. -/
theorem boot_initial {objects : List ThreadPtr} {idle : ThreadPtr} (hn : objects.Nodup)
    (hi : idle ∈ objects) : Initial (.boot objects idle) objects := by
  have h : Booted (objects.foldl bootCreate bootScheduler) ([] ++ objects) :=
    foldl_booted bootScheduler_booted (by simpa using hn)
  refine ⟨⟨h.rep.congr rfl rfl rfl rfl rfl (fun _ => rfl) rfl rfl, h.ready, h.wakeTick, h.stack,
    h.current, h.unlocked, h.depth⟩, fun _ _ => rfl, ⟨idle, hi, rfl⟩, fun _ => rfl, rfl⟩

/-- The states of all runs of the system whose steps are admissible and meet `ok`. -/
def Reachable (ok : System → Action → Prop) : System → Prop :=
  Reach System.step (fun σ => ∃ run, Initial σ run) fun σ act => Admissible σ act ∧ ok σ act

/-! ### The invariant between steps -/

/-- What holds of the kernel whenever a context is about to take a step or to yield. -/
structure Base (k : Kernel) (pc : ThreadPtr → Pc) (a : Shape) : Prop where
  wf : Wf k.sched pc a
  free : k.locks.Free
  unlocked : k.sched.scheduleLocked = false
  depth : k.sched.irqDepth = 0
  running : ∀ t ∈ a.run, (k.sched.thread t).state = .running → k.sched.currentThread = some t
  idleRunning : ∀ i, k.sched.currentThread = some i → k.sched.idleThread = some i →
    (k.sched.thread i).state = .running

/-- The running thread is in the running state or, unless `strict`, ready; it may be in
another state only when it is about to yield. -/
def Awake (strict : Bool) (s : Scheduler) (pc : ThreadPtr → Pc) : Prop :=
  ∀ c, s.currentThread = some c → (pc c).yields ∨ (s.thread c).state = .running ∨
    strict = false ∧ (s.thread c).state = .ready

structure Inv (strict : Bool) (σ : System) (a : Shape) : Prop where
  base : Base σ.kernel σ.pc a
  awake : Awake strict σ.kernel.sched σ.pc

def OnRunQueue (s : Scheduler) (t : ThreadPtr) : Prop :=
  ∃ l, Path s.links s.runQueueHead l none ∧ t ∈ l

/-- The current thread is ready and no other thread but the idle one is. -/
def Alone (s : Scheduler) : Prop :=
  ∃ c, s.currentThread = some c ∧ (s.thread c).state = .ready ∧
    ∀ u, OnRunQueue s u → u ≠ c → runnable s u = false

section
variable {k : Kernel} {s s' : Scheduler} {a : Shape} {pc : ThreadPtr → Pc} {c t : ThreadPtr}

theorem Represents.onRunQueue (h : Represents s a) : OnRunQueue s t ↔ t ∈ a.run := by
  constructor
  · rintro ⟨l, hl, ht⟩
    rwa [path_unique hl h.run] at ht
  · exact fun ht => ⟨a.run, h.run, ht⟩

theorem reap_state {gone : List ThreadPtr} (hskel : s'.skeleton = s.skeleton.reap gone)
    (ht : t ∉ gone) : (s'.thread t).state = (s.thread t).state := by
  rw [← skeleton_state, hskel, reap_thread, if_neg ht]
  rfl

theorem Base.idle_ready (h : Base k pc a) {i : ThreadPtr} (hi : k.sched.idleThread = some i)
    (hc : k.sched.currentThread ≠ some i) : (k.sched.thread i).state = .ready := by
  rcases h.wf.idle_active hi with hst | hst
  · exact hst
  · exact absurd (h.running i (h.wf.idle_mem i hi) hst) hc

/-- `need_resched` plays no part. -/
theorem Base.clearResched (h : Base k pc a) :
    Base ⟨{ k.sched with needResched := false }, k.locks⟩ pc a :=
  ⟨h.wf.flags rfl rfl rfl rfl rfl rfl rfl h.wf.current, h.free, h.unlocked, h.depth, h.running,
    h.idleRunning⟩

/-- A reaping pass changes no live thread. -/
theorem Base.reap (h : Base k pc a) (hwf : Wf s pc (a.reap k.sched))
    (hskel : s.skeleton = k.sched.skeleton.reap (a.run.filter (reapable k.sched))) :
    Base ⟨s, k.locks⟩ pc (a.reap k.sched) ∧ s.currentThread = k.sched.currentThread ∧
      s.idleThread = k.sched.idleThread ∧
      ∀ t ∈ (a.reap k.sched).run, (s.thread t).state = (k.sched.thread t).state := by
  have hfield {β : Type} (g : Scheduler → β) : g s.skeleton =
      g (k.sched.skeleton.reap (a.run.filter (reapable k.sched))) := congrArg g hskel
  have hcur : s.currentThread = k.sched.currentThread := hfield Scheduler.currentThread
  have hidle : s.idleThread = k.sched.idleThread := hfield Scheduler.idleThread
  have hstate : ∀ t ∈ (a.reap k.sched).run, (s.thread t).state = (k.sched.thread t).state := by
    intro t ht
    obtain ⟨-, hr⟩ := List.mem_filter.mp ht
    exact reap_state hskel (by simp_all)
  refine ⟨⟨hwf, h.free, (hfield Scheduler.scheduleLocked).trans h.unlocked,
    (hfield Scheduler.irqDepth).trans h.depth, fun t ht hr => ?_, fun i hc hi => ?_⟩,
    hcur, hidle, hstate⟩
  · rw [hstate t ht] at hr
    rw [hcur]
    exact h.running t (List.mem_filter.mp ht).1 hr
  · rw [hstate i (hwf.current i hc)]
    exact h.idleRunning i (hcur ▸ hc) (hidle ▸ hi)

theorem switchTo_state (t u : ThreadPtr) : ((s.switchTo t).thread u).state =
    if u = t then .running
    else if s.currentThread = some u ∧ (s.thread u).state = .running then .ready
    else (s.thread u).state := by
  change (((s.preempt s.currentThread).withState t .running _).thread u).state = _
  rw [withState_thread]
  by_cases hu : u = t
  · simp [hu]
  · rw [if_neg hu, if_neg hu]
    by_cases hc : s.currentThread = some u
    · rw [hc, Scheduler.preempt]
      by_cases hr : (s.thread u).state = .running
      · simp [hr, withState_thread]
      · simp [hr]
    · rw [preempt_thread hc]
      simp [hc]

/-- Switching to a ready thread leaves one running thread, the new current one. -/
theorem Base.switchTo (h : Base ⟨s, k.locks⟩ pc a) (hwf : Wf (s.switchTo t) pc a) :
    Base ⟨s.switchTo t, k.locks⟩ pc a := by
  have hdepth : (s.switchTo t).irqDepth = s.irqDepth := by
    cases hc : s.currentThread with
    | none => simp [Scheduler.switchTo, Scheduler.preempt, hc, Scheduler.withState,
        Scheduler.modifyThread]
    | some p =>
      simp only [Scheduler.switchTo, Scheduler.preempt, hc]
      split <;> rfl
  refine ⟨hwf, h.free, rfl, hdepth.trans h.depth, fun u hu hr => ?_, fun i hc _ => ?_⟩
  · change some t = some u
    rw [switchTo_state] at hr
    by_cases hut : u = t
    · rw [hut]
    · rw [if_neg hut] at hr
      split at hr
      next => cases hr
      next hnot => exact absurd ⟨h.running u hu hr, hr⟩ hnot
  · obtain rfl : t = i := Option.some.inj hc
    rw [switchTo_state, if_pos rfl]

theorem Represents.alone_iff (h : Represents s a) : Alone s ↔
    ∃ c, s.currentThread = some c ∧ (s.thread c).state = .ready ∧
      ∀ u ∈ a.run, u ≠ c → runnable s u = false := by
  simp only [Alone, h.onRunQueue]

/-- Zombies do not count as company. -/
theorem Base.alone_reap (h : Base k pc a) (hwf : Wf s pc (a.reap k.sched))
    (hskel : s.skeleton = k.sched.skeleton.reap (a.run.filter (reapable k.sched))) :
    Alone s ↔ Alone k.sched := by
  obtain ⟨-, hcur, hidle, hstate⟩ := h.reap hwf hskel
  have hrun : ∀ u ∈ (a.reap k.sched).run, runnable s u = runnable k.sched u := by
    intro u hu
    simp only [runnable, threadIsReady, Option.any_some, hstate u hu, hidle]
  rw [hwf.rep.alone_iff, h.wf.rep.alone_iff, hcur]
  refine exists_congr fun c => and_congr_right fun hc => ?_
  rw [hstate c (hwf.current c (hcur.trans hc))]
  refine and_congr_right fun _ => ⟨fun ho u hu hne => ?_, fun ho u hu hne => ?_⟩
  · by_cases hr : reapable k.sched u = true
    · simp [runnable, threadIsReady, (reapable_iff.mp hr).1]
    · have hu' : u ∈ (a.reap k.sched).run := List.mem_filter.mpr ⟨hu, by simpa using hr⟩
      rw [← hrun u hu']
      exact ho u hu' hne
  · rw [hrun u hu]
    exact ho u (List.mem_filter.mp hu).1 hne

/-- When nobody is ready, the idle thread is the one that runs. -/
theorem Base.pick_none (h : Base ⟨s, k.locks⟩ pc a) (hp : pick s a.run = none) :
    ∃ i, s.currentThread = some i ∧ s.idleThread = some i ∧ (s.thread i).state = .running := by
  obtain ⟨i, -, hi, -⟩ := h.wf.idle
  change s.idleThread = some i at hi
  have hnot : (s.thread i).state ≠ .ready := by
    have hr := pick_eq_none hp
    rw [hi] at hr
    simpa [threadIsReady] using hr
  have hcur : s.currentThread = some i := by
    by_contra hc
    exact hnot (h.idle_ready hi hc)
  exact ⟨i, hcur, hi, h.idleRunning i hcur hi⟩

/-- The outcome of the choice that `sched_yield` makes. -/
theorem Base.resched (h : Base ⟨s, k.locks⟩ pc a)
    (hwf : Wf (s.resched (pick s a.run)) pc a) :
    Base ⟨s.resched (pick s a.run), k.locks⟩ pc a ∧ Awake false (s.resched (pick s a.run)) pc ∧
      ((∃ c, (s.resched (pick s a.run)).currentThread = some c ∧
        ((s.resched (pick s a.run)).thread c).state = .running) ↔ ¬ Alone s) := by
  have hrep := h.wf.rep
  rw [hrep.alone_iff]
  cases hp : pick s a.run with
  | none =>
    obtain ⟨i, hcur, -, hrun⟩ := h.pick_none hp
    refine ⟨h, fun c hc => ?_, ?_⟩
    · obtain rfl := Option.some.inj (hcur.symm.trans hc)
      exact .inr (.inl hrun)
    · refine iff_of_true ⟨i, hcur, hrun⟩ ?_
      rintro ⟨c, hc, hr, -⟩
      obtain rfl := Option.some.inj (hcur.symm.trans hc)
      rw [hr] at hrun
      cases hrun
  | some t =>
    rw [hp] at hwf
    obtain ⟨hready, htm⟩ := pick_ready hrep h.wf.current h.wf.idle_mem hp
    by_cases hc : s.currentThread = some t
    · -- The caller picked itself: it stays ready, and it is alone.
      have hti : s.idleThread ≠ some t := by
        intro hit
        have hrt : (s.thread t).state = .running := h.idleRunning t hc hit
        rw [hready] at hrt
        cases hrt
      have halone := pick_current hrep hc htm hti hp
      simp only [Scheduler.resched, hc, ↓reduceIte]
      refine ⟨h, fun c hc' => ?_, iff_of_false ?_ ?_⟩
      · obtain rfl := Option.some.inj (hc.symm.trans hc')
        exact .inr (.inr ⟨rfl, hready⟩)
      · rintro ⟨c, hc', hr⟩
        obtain rfl := Option.some.inj hc'
        rw [hready] at hr
        cases hr
      · exact not_not_intro ⟨t, rfl, hready, halone⟩
    · simp only [Scheduler.resched, hc, ↓reduceIte] at hwf ⊢
      refine ⟨h.switchTo hwf, fun c hc' => ?_, iff_of_true ⟨t, rfl, ?_⟩ ?_⟩
      · obtain rfl : t = c := Option.some.inj hc'
        right; left
        rw [switchTo_state, if_pos rfl]
      · rw [switchTo_state, if_pos rfl]
      · rintro ⟨c, hc', hr, ho⟩
        have hci : s.idleThread ≠ some c := by
          intro hit
          have hrc : (s.thread c).state = .running := h.idleRunning c hc' hit
          rw [hr] at hrc
          cases hrc
        have hrc : runnable s c = true := runnable_iff.mpr ⟨hr, fun he => hci he.symm⟩
        have := pick_of_alone hrep h.wf.current (h.wf.current c hc') hrc ho
        rw [hp] at this
        exact hc (hc'.trans this.symm)

/-- `sched_yield` keeps the invariant and leaves the running thread awake. That thread is
running, except when the caller was ready and alone. -/
theorem Base.yield (h : Base k pc a) :
    ∃ s', schedYield k = .ok ⟨s', k.locks⟩ ∧ Base ⟨s', k.locks⟩ pc (a.reap k.sched) ∧
      (∀ strict, (strict = true → ¬ Alone k.sched) → Awake strict s' pc) ∧
      ((∃ c, s'.currentThread = some c ∧ (s'.thread c).state = .running) ↔ ¬ Alone k.sched) := by
  obtain ⟨s, hwf, hskel, hyield, hwf'⟩ := h.wf.yield h.free h.unlocked h.depth
  obtain ⟨hbase, -⟩ := h.reap hwf hskel
  obtain ⟨hb, haw, hiff⟩ := hbase.resched hwf'
  have hiff' := hiff.trans (not_congr (h.alone_reap hwf hskel))
  refine ⟨_, hyield, hb, fun strict hs c hc => ?_, hiff'⟩
  cases strict with
  | false => exact haw c hc
  | true =>
    obtain ⟨c', hc', hr⟩ := hiff'.mpr (hs rfl)
    obtain rfl := Option.some.inj (hc.symm.trans hc')
    exact .inr (.inl hr)

end

/-! ### Every step keeps the invariant -/

/-- The steps that call `sched_yield`. -/
def System.Yields (σ : System) : Action → Prop
  | .thread call cond => σ.halted = false ∧
      ∃ k p, threadStep σ.kernel σ.point call cond = .ok (k, .yieldTo p)
  | .irqExit => ∃ s, schedIrqLeave (schedIrqEnter σ.kernel.sched) = .ok (s, true)
  | _ => False

section
variable {strict : Bool} {σ σ' : System} {a : Shape} {act : Action}

theorem Inv.tick (h : Inv strict σ a) :
    Inv strict ⟨⟨σ.kernel.sched.ticked a.run, σ.kernel.locks⟩, σ.pc⟩ a := by
  have hstate (t : ThreadPtr) (hs : (σ.kernel.sched.thread t).state ≠ .sleeping) :
      (σ.kernel.sched.ticked a.run).thread t = σ.kernel.sched.thread t := by
    rw [ticked_thread, if_neg (fun he => hs he.2.1)]
  refine ⟨⟨h.base.wf.tick, h.base.free, h.base.unlocked, h.base.depth, fun t ht hr => ?_,
    fun i hc hi => ?_⟩, fun c hc => ?_⟩
  · refine h.base.running t ht ?_
    rw [ticked_thread] at hr
    split at hr
    next => cases hr
    next => exact hr
  · have hr := h.base.idleRunning i hc hi
    rw [hstate i (by simp [hr])]
    exact hr
  · rcases h.awake c hc with hy | hr | ⟨hs, hr⟩
    · exact .inl hy
    · exact .inr (.inl (by rw [hstate c (by simp [hr])]; exact hr))
    · exact .inr (.inr ⟨hs, by rw [hstate c (by simp [hr])]; exact hr⟩)

theorem Inv.wake {k : Kernel} {kind : WakeKind} {queue : Option QueuePtr} (h : Inv strict σ a)
    (hs : waitQueueWake kind σ.kernel queue = .ok k) : ∃ a', a'.run = a.run ∧
      Inv strict ⟨k, σ.pc⟩ a' := by
  obtain ⟨hlocks, a', l, hrun, hwf, hskel, hl⟩ := waitQueueWake_wf h.base.free h.base.wf hs
  have hfield {β : Type} (g : Scheduler → β) : g k.sched.skeleton =
      g (σ.kernel.sched.skeleton.wakeUp l) := congrArg g hskel
  have hcur : k.sched.currentThread = σ.kernel.sched.currentThread :=
    hfield Scheduler.currentThread
  have hstate (t : ThreadPtr) (hw : ¬ Waitable σ.kernel.sched t) :
      (k.sched.thread t).state = (σ.kernel.sched.thread t).state := by
    rw [wakeUp_state hskel, if_neg fun hm => hw (hl t hm).1]
  refine ⟨a', hrun, ⟨hwf, by rw [hlocks]; exact h.base.free,
    (hfield Scheduler.scheduleLocked).trans h.base.unlocked,
    (hfield Scheduler.irqDepth).trans h.base.depth, fun t ht hr => ?_, fun i hc hi => ?_⟩,
    fun c hc => ?_⟩
  · rw [hcur]
    refine h.base.running t (hrun ▸ ht) ?_
    rw [wakeUp_state hskel] at hr
    split at hr
    next => cases hr
    next => exact hr
  · have hr := h.base.idleRunning i (hcur ▸ hc) ((hfield Scheduler.idleThread) ▸ hi)
    rw [hstate i (by simp [Waitable, hr])]
    exact hr
  · rcases h.awake c (hcur ▸ hc) with hy | hr | ⟨hs, hr⟩
    · exact .inl hy
    · exact .inr (.inl (by rw [hstate c (by simp [Waitable, hr])]; exact hr))
    · exact .inr (.inr ⟨hs, by rw [hstate c (by simp [Waitable, hr])]; exact hr⟩)

/-- The decision at the end of an outermost interrupt. -/
theorem schedIrqLeave_enter {s : Scheduler} (hd : s.irqDepth = 0) :
    schedIrqLeave (schedIrqEnter s) =
      if !s.needResched || s.currentThread.isNone || s.scheduleLocked then .ok (s, false)
      else .ok ({ s with needResched := false }, true) := by
  have hs : ({ s with irqDepth := 0 } : Scheduler) = s := by rw [← hd]
  simp only [schedIrqLeave, schedIrqEnter, hd, Nat.zero_add, Nat.one_ne_zero, ↓reduceIte,
    Nat.sub_self, ne_eq, not_true_eq_false, hs]

theorem schedIrqLeave_ok {s s' : Scheduler} {resched : Bool} (hd : s.irqDepth = 0)
    (h : schedIrqLeave (schedIrqEnter s) = .ok (s', resched)) :
    s' = if resched then { s with needResched := false } else s := by
  rw [schedIrqLeave_enter hd] at h
  split at h
  next =>
    obtain ⟨rfl, rfl⟩ := Prod.mk.inj (Except.ok.inj h)
    rfl
  next =>
    obtain ⟨rfl, rfl⟩ := Prod.mk.inj (Except.ok.inj h)
    rfl

theorem Inv.irqExit (h : Inv strict σ a) (hok : strict = true → σ.Yields .irqExit →
    ¬ Alone σ.kernel.sched) (hs : σ.step .irqExit = .ok σ') : ∃ a', Inv strict σ' a' := by
  obtain ⟨k', hexit, rfl⟩ := map_ok hs
  obtain ⟨⟨s, resched⟩, hleave, hrest⟩ := bind_ok hexit
  cases resched with
  | false =>
    obtain rfl := Except.ok.inj hrest
    obtain rfl := schedIrqLeave_ok h.base.depth hleave
    exact ⟨a, h⟩
  | true =>
    have hyields : σ.Yields .irqExit := ⟨s, hleave⟩
    obtain rfl := schedIrqLeave_ok h.base.depth hleave
    obtain ⟨s', hyield, hb, haw, -⟩ := h.base.clearResched.yield
    obtain rfl := Except.ok.inj (hyield.symm.trans hrest)
    exact ⟨_, hb, haw strict fun hst => hok hst hyields⟩

theorem movePc_self (pc : ThreadPtr → Pc) (c : ThreadPtr) (control : Control) :
    movePc pc (some c) control c = control.pc := by
  unfold movePc
  split
  next t =>
    by_cases hc : c = t
    · subst hc; simp [Control.pc]
    · simp [hc]
  next => simp

/-- A completed thread step, before the yield that may follow it. -/
theorem StepOk.base {k k' : Kernel} {pc : ThreadPtr → Pc} {control : Control} (h : Base k pc a)
    (hidle : ∀ c, k.sched.currentThread = some c → k.sched.idleThread ≠ some c)
    (hs : StepOk k k' pc a k.sched.currentThread control) :
    ∃ a', a'.run = a.run ++ control.threads ∧
      Base k' (movePc pc k.sched.currentThread control) a' := by
  obtain ⟨a', hrun, hwf⟩ := hs.wf
  refine ⟨a', hrun, hwf, by rw [hs.locks]; exact h.free,
    hs.advance.scheduleLocked.trans h.unlocked, hs.advance.irqDepth.trans h.depth,
    fun t ht hr => ?_, fun i hc hi => ?_⟩
  · rw [hs.advance.current]
    rw [hrun] at ht
    rcases List.mem_append.mp ht with ht | ht
    · exact h.running t ht (hs.advance.running t hr)
    · rw [hs.spawned t ht] at hr
      cases hr
  · rw [hs.advance.current] at hc
    rw [hs.advance.idle] at hi
    exact absurd hi (hidle i hc)

theorem System.halted_iff : σ.halted = false ↔
    ∀ c, σ.kernel.sched.currentThread = some c → σ.kernel.sched.idleThread ≠ some c := by
  unfold System.halted
  cases hc : σ.kernel.sched.currentThread with
  | none => simp
  | some c => simp [eq_comm]

theorem Inv.stepOk (h : Inv strict σ a) (hh : σ.halted = false) {k : Kernel} {call : Call}
    {cond : Bool} {control : Control} (hfresh : Fresh σ.kernel.sched call)
    (hs : threadStep σ.kernel σ.point call cond = .ok (k, control)) :
    StepOk σ.kernel k σ.pc a σ.kernel.sched.currentThread control := by
  unfold System.point at hs
  cases hc : σ.kernel.sched.currentThread with
  | none =>
    rw [hc] at hs
    exact beginCall_boot h.base.free h.base.wf hc hfresh hs
  | some c =>
    rw [hc] at hs
    refine threadStep_wf h.base.free h.base.wf hc (System.halted_iff.mp hh c hc) ?_ hfresh hs
    exact (h.awake c hc).imp_right fun hr => hr.elim .inr fun hr => .inl hr.2

/-- After a step that does not yield, the running thread is still awake. -/
theorem Inv.awake_step (h : Inv strict σ a) {k : Kernel} {call : Call} {cond : Bool}
    {control : Control} (hs : threadStep σ.kernel σ.point call cond = .ok (k, control))
    (hso : StepOk σ.kernel k σ.pc a σ.kernel.sched.currentThread control)
    (hny : ∀ p, control ≠ .yieldTo p) :
    Awake strict k.sched (movePc σ.pc σ.kernel.sched.currentThread control) := by
  intro c hc
  obtain ⟨a', -, hwf⟩ := hso.wf
  have hres : ¬ control.pc.resumes := by
    rcases hso.point with ⟨p, he, -⟩ | ⟨-, hres⟩
    · exact absurd he (hny p)
    · exact hres
  have hc' := hso.advance.current.symm.trans hc
  have hfit := (hwf.threads c (hwf.current c hc)).fits
  simp only [hc', movePc_self] at hfit ⊢
  by_cases hy : control.pc.yields
  · exact .inl hy
  · right
    rcases hfit.active_of_point hy hres with hr | hr
    · -- The thread can only be ready when it already was.
      have hold := hso.advance.ready c hc' hr
      rcases h.awake c hc' with hpy | hrun | ⟨hst, -⟩
      · obtain ⟨r, hr'⟩ := threadStep_yields σ.kernel call cond hpy
        have hpoint : σ.point = σ.pc c := by simp [System.point, hc']
        rw [hpoint, hr'] at hs
        obtain ⟨-, rfl⟩ := Prod.mk.inj (Except.ok.inj hs)
        exact absurd rfl (hny r)
      · rw [hold] at hrun
        cases hrun
      · exact .inr ⟨hst, hr⟩
    · exact .inl hr

theorem Inv.thread (h : Inv strict σ a) {call : Call} {cond : Bool}
    (hfresh : Fresh σ.kernel.sched call) (hok : strict = true → σ.Yields (.thread call cond) →
      ¬ Alone σ.kernel.sched) (hs : σ.step (.thread call cond) = .ok σ') :
    ∃ a', Inv strict σ' a' := by
  simp only [System.step] at hs
  split at hs
  next =>
    obtain rfl := Except.ok.inj hs
    exact ⟨a, h⟩
  next hh =>
    replace hh : σ.halted = false := by simpa using hh
    obtain ⟨⟨k, control⟩, hstep, hfin⟩ := bind_ok hs
    have hso := h.stepOk hh hfresh hstep
    obtain ⟨a', -, hbase⟩ := hso.base h.base (System.halted_iff.mp hh)
    rcases hso.point with ⟨p, rfl, rfl⟩ | ⟨hny, -⟩
    · obtain ⟨k', hyield, rfl⟩ := map_ok hfin
      obtain ⟨s', hy, hb, haw, -⟩ := hbase.yield
      obtain rfl := Except.ok.inj (hy.symm.trans hyield)
      exact ⟨_, hb, haw strict fun hst => hok hst ⟨hh, _, p, hstep⟩⟩
    · have hσ : σ' = ⟨k, movePc σ.pc σ.kernel.sched.currentThread control⟩ := by
        cases control <;> simp_all [System.finish]
      subst hσ
      exact ⟨a', hbase, h.awake_step hstep hso hny⟩

/-- Every admissible step keeps the invariant; the strict form needs that no caller of
`sched_yield` is ready and alone. -/
theorem Inv.step (h : Inv strict σ a) (hadm : Admissible σ act)
    (hok : strict = true → σ.Yields act → ¬ Alone σ.kernel.sched) (hs : σ.step act = .ok σ') :
    ∃ a', Inv strict σ' a' := by
  cases act with
  | thread call cond => exact h.thread hadm hok hs
  | tick =>
    obtain ⟨s, ht, rfl⟩ := map_ok hs
    rw [timerTick_eq h.base.wf.rep] at ht
    obtain rfl := Except.ok.inj ht
    exact ⟨a, h.tick⟩
  | wake kind queue =>
    obtain ⟨k, hw, rfl⟩ := map_ok hs
    obtain ⟨a', -, hinv⟩ := h.wake hw
    exact ⟨a', hinv⟩
  | irqExit => exact h.irqExit hok hs

theorem Initial.inv {run : List ThreadPtr} (h : Initial σ run) :
    Inv strict σ ⟨run, fun _ => []⟩ := by
  have hrep := h.booted.rep
  have hunlinked : ∀ t ∈ run, (σ.kernel.sched.thread t).waitQueue = none := by
    intro t ht
    by_contra hq
    obtain ⟨q, hq⟩ := Option.ne_none_iff_exists'.mp hq
    have := (hrep.owner q t ht).mpr hq
    simp at this
  refine ⟨⟨⟨hrep, fun t ht => ?_, by simp [h.booted.current], ?_⟩, h.free, h.booted.unlocked,
    h.booted.depth, fun t ht hr => ?_, by simp [h.booted.current]⟩, ?_⟩
  · rw [h.entry t ht]
    exact ⟨⟨hunlinked t ht, .inl (h.booted.ready t ht)⟩, fun hw => absurd (h.booted.wakeTick t ht) hw,
      (h.booted.stack t ht).1, (h.booted.stack t ht).2⟩
  · obtain ⟨i, hi, hii⟩ := h.idle
    exact ⟨i, hi, hii, h.entry i hi⟩
  · rw [h.booted.ready t ht] at hr
    cases hr
  · intro c hc
    rw [h.booted.current] at hc
    cases hc

/-- The invariant holds in every reachable state. -/
theorem reachable_inv (strict : Bool) {ok : System → Action → Prop} (h : Reachable ok σ)
    (hok : strict = true → ∀ σ act, ok σ act → σ.Yields act → ¬ Alone σ.kernel.sched) :
    ∃ a, Inv strict σ a := by
  refine Reach.invariant (I := fun σ => ∃ a, Inv strict σ a) h ?_ ?_
  · rintro σ ⟨run, hi⟩
    exact ⟨_, hi.inv⟩
  · rintro σ act σ' ⟨a, ha⟩ ⟨hadm, ho⟩ hs
    exact ha.step hadm (fun hst => hok hst σ act ho) hs

end

end Tianole.Sched
