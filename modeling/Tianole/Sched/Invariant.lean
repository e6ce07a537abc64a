import Tianole.Sched.Program
import Tianole.Sched.WaitQueue

/-! The scheduler invariant: the lists are well linked, and every thread is in a state that
fits the point at which it stands. Each operation keeps it. -/
namespace Tianole.Sched
open Word

def Active (x : Thread) : Prop := x.state = .ready ∨ x.state = .running

/-- The points that are about to call `sched_yield` after the thread has blocked itself. -/
def Pc.yields : Pc → Prop
  | .sleepYield | .queueSleepYield _ | .waitYield _ | .timeoutYield _ _ | .exitYield => True
  | _ => False

/-- The points just behind such a call. -/
def Pc.resumes : Pc → Prop
  | .sleepReturn | .queueSleepCheck _ | .waitRemove _ | .timeoutRemove _ _ => True
  | _ => False

/-- What a thread at a given point looks like. A timed waiter is woken by the timer while it
is still linked; every other thread is linked only while it is waiting. -/
def Fits (pc : Pc) (x : Thread) : Prop :=
  match pc with
  | .sleepYield | .sleepReturn => x.waitQueue = none ∧ (Active x ∨ x.state = .sleeping)
  | .queueSleepYield q | .queueSleepCheck q | .waitYield q | .waitRemove q =>
      x.waitQueue = none ∧ Active x ∨ x.waitQueue = some q ∧ x.state = .waiting
  | .timeoutYield q deadline | .timeoutRemove q deadline =>
      x.waitQueue = none ∧ Active x ∨ x.waitQueue = some q ∧
        (Active x ∨ x.state = .sleeping ∧ x.wakeTick = deadline ∧ 0 < deadline)
  | .exitYield => x.waitQueue = none ∧ x.state = .zombie
  | _ => x.waitQueue = none ∧ Active x

structure ThreadOk (pc : Pc) (x : Thread) : Prop where
  fits : Fits pc x
  wake : x.wakeTick ≠ 0 → x.state = .sleeping
  stackBase : x.stackBase ≠ 0
  stackSize : x.stackSize ≠ 0

section ThreadOk
variable {pc : Pc} {x : Thread}

theorem Fits.ready_of_sleeping (h : Fits pc x) (hs : x.state = .sleeping) :
    Fits pc { x with state := .ready, wakeTick := 0 } := by
  cases pc <;> simp_all [Fits, Active]

theorem Fits.woken (h : Fits pc x) (hs : x.state = .waiting ∨ x.state = .sleeping) :
    Fits pc { x with state := .ready, wakeTick := 0, waitQueue := none } := by
  cases pc <;> simp_all [Fits, Active]

theorem Fits.active (h : Fits pc x) (ha : Active x) {y : Thread} (hy : Active y)
    (hq : y.waitQueue = x.waitQueue) : Fits pc y := by
  rcases ha with ha | ha <;> cases pc <;> simp_all [Fits, Active]

theorem threadOk_skeleton {s : Scheduler} {t : ThreadPtr} :
    ThreadOk pc (s.skeleton.thread t) ↔ ThreadOk pc (s.thread t) :=
  ⟨fun h => ⟨h.fits, h.wake, h.stackBase, h.stackSize⟩,
    fun h => ⟨h.fits, h.wake, h.stackBase, h.stackSize⟩⟩

/-- A timer wakeup. -/
theorem ThreadOk.ready_of_sleeping (h : ThreadOk pc x) (hs : x.state = .sleeping) :
    ThreadOk pc { x with state := .ready, wakeTick := 0 } :=
  ⟨h.fits.ready_of_sleeping hs, fun hw => absurd rfl hw, h.stackBase, h.stackSize⟩

/-- A wakeup from a wait queue. -/
theorem ThreadOk.woken (h : ThreadOk pc x) (hs : x.state = .waiting ∨ x.state = .sleeping) :
    ThreadOk pc { x with state := .ready, wakeTick := 0, waitQueue := none } :=
  ⟨h.fits.woken hs, fun hw => absurd rfl hw, h.stackBase, h.stackSize⟩

theorem ThreadOk.preempt (h : ThreadOk pc x) (hs : x.state = .running) :
    ThreadOk pc { x with state := .ready, wakeTick := 0 } :=
  ⟨h.fits.active (.inr hs) (.inl rfl) rfl, fun hw => absurd rfl hw, h.stackBase, h.stackSize⟩

theorem ThreadOk.dispatch (h : ThreadOk pc x) (hs : x.state = .ready) :
    ThreadOk pc { x with state := .running } :=
  ⟨h.fits.active (.inl hs) (.inr rfl) rfl, fun hw => absurd (h.wake hw) (by simp [hs]),
    h.stackBase, h.stackSize⟩

/-- A zombie is on no wait queue. -/
theorem Fits.zombie_unlinked (h : Fits pc x) (hs : x.state = .zombie) : x.waitQueue = none := by
  cases pc <;> simp_all [Fits, Active]

/-- A thread that is neither blocked nor behind a blocking call can run. -/
theorem Fits.active_of_point (h : Fits pc x) (hy : ¬ pc.yields) (hr : ¬ pc.resumes) :
    Active x := by
  cases pc <;> simp_all [Fits, Pc.yields, Pc.resumes]

end ThreadOk

/-- The invariant of the scheduler objects, with the lists that they spell. -/
structure Wf (s : Scheduler) (pc : ThreadPtr → Pc) (a : Shape) : Prop where
  rep : Represents s a
  threads : ∀ t ∈ a.run, ThreadOk (pc t) (s.thread t)
  current : ∀ c, s.currentThread = some c → c ∈ a.run
  idle : ∃ i ∈ a.run, s.idleThread = some i ∧ pc i = .entry

section
variable {s s' : Scheduler} {a : Shape} {pc : ThreadPtr → Pc} {t c : ThreadPtr} {q : QueuePtr}

theorem Wf.idle_mem (h : Wf s pc a) : ∀ i, s.idleThread = some i → i ∈ a.run := by
  intro i hi
  obtain ⟨j, hj, hji, -⟩ := h.idle
  rw [hi] at hji
  rwa [Option.some.inj hji]

theorem Wf.idle_active (h : Wf s pc a) {i : ThreadPtr} (hi : s.idleThread = some i) :
    Active (s.thread i) := by
  obtain ⟨j, hj, hji, hpc⟩ := h.idle
  obtain rfl := Option.some.inj (hi.symm.trans hji)
  have := (h.threads i hj).fits
  rw [hpc] at this
  exact this.2

/-- Fields outside the lists and the thread objects do not matter. -/
theorem Wf.flags (h : Wf s pc a) (ht : s'.thread = s.thread) (hq : s'.queue = s.queue)
    (hh : s'.runQueueHead = s.runQueueHead) (hl : s'.runQueueTail = s.runQueueTail)
    (ha : s'.allocated = s.allocated) (hc : s'.created = s.created)
    (hi : s'.idleThread = s.idleThread) (hcur : ∀ c, s'.currentThread = some c → c ∈ a.run) :
    Wf s' pc a where
  rep := h.rep.congr (by funext u; simp [Scheduler.links, ht])
    (by funext u; simp [Scheduler.waitLinks, ht]) hh hl hq (by simp [ht]) ha hc
  threads := by rw [ht]; exact h.threads
  current := hcur
  idle := by rw [hi]; exact h.idle

/-- Changing the state of one thread. -/
theorem Wf.withState (h : Wf s pc a) {state : ThreadState} {wake : ℕ}
    (hok : ThreadOk (pc t) { s.thread t with state := state, wakeTick := wake }) :
    Wf (s.withState t state wake) pc a where
  rep := h.rep.withState t state wake
  threads u hu := by
    rw [withState_thread]
    split
    next he => rw [he]; exact hok
    next => exact h.threads u hu
  current := h.current
  idle := h.idle

/-! ### Timer -/

/-- The state after one timer tick. -/
def Scheduler.ticked (s : Scheduler) (run : List ThreadPtr) : Scheduler :=
  let tick := wrap64 (s.tickCount + 1)
  let s := ({ s with tickCount := tick } : Scheduler).wakeExpired tick run
  { s with needResched := s.needResched || threadIsRunning s s.currentThread }

theorem timerTick_eq (h : Represents s a) : timerTick s = .ok (s.ticked a.run) := by
  have h' : Represents { s with tickCount := wrap64 (s.tickCount + 1) } a :=
    h.congr rfl rfl rfl rfl rfl (fun _ => rfl) rfl rfl
  simp only [timerTick, schedTick, wakeSleepingThreads_eq h', bind, Except.bind, pure,
    Except.pure, Scheduler.ticked]
  cases hr : threadIsRunning (({ s with tickCount := wrap64 (s.tickCount + 1) } :
      Scheduler).wakeExpired (wrap64 (s.tickCount + 1)) a.run) s.currentThread <;>
    simp [Scheduler.wakeExpired] at hr ⊢ <;> simp [hr]

theorem ticked_thread (run : List ThreadPtr) (u : ThreadPtr) : (s.ticked run).thread u =
    if u ∈ run ∧ (s.thread u).state = .sleeping ∧
        (s.thread u).wakeTick ≤ wrap64 (s.tickCount + 1) then
      { s.thread u with state := .ready, wakeTick := 0 }
    else s.thread u := rfl

theorem Wf.tick (h : Wf s pc a) : Wf (s.ticked a.run) pc a where
  rep := (wakeExpired_represents (s := { s with tickCount := wrap64 (s.tickCount + 1) })
    (h.rep.congr rfl rfl rfl rfl rfl (fun _ => rfl) rfl rfl) _ a.run).congr
    rfl rfl rfl rfl rfl (fun _ => rfl) rfl rfl
  threads u hu := by
    rw [ticked_thread]
    split
    next hs => exact (h.threads u hu).ready_of_sleeping hs.2.1
    next => exact h.threads u hu
  current := h.current
  idle := h.idle

/-! ### Wakeup -/

theorem wakeUp_thread (l : List ThreadPtr) (u : ThreadPtr) : (s.wakeUp l).thread u =
    if u ∈ l then { s.thread u with state := .ready, wakeTick := 0, waitQueue := none }
    else s.thread u := rfl

/-- A wakeup of waitable threads keeps the invariant and readies exactly those it removes. -/
theorem Wf.wake (h : Wf s pc a) (kind : WakeKind) (q : QueuePtr)
    (hw : ∀ t ∈ kind.removed (a.wait q), Waitable s t) :
    ∃ s', wakeLocked kind s (some q) = .ok s' ∧
      Wf s' pc { a with wait := Function.update a.wait q (kind.left (a.wait q)) } ∧
      s'.skeleton = s.skeleton.wakeUp (kind.removed (a.wait q)) := by
  obtain ⟨s', hok, hrep, hskel⟩ := (wakeLocked_eq h.rep kind q).1 hw
  have hcur : s'.currentThread = s.currentThread := by
    have := congrArg Scheduler.currentThread hskel
    exact this
  have hidle : s'.idleThread = s.idleThread := by
    have := congrArg Scheduler.idleThread hskel
    exact this
  refine ⟨s', hok, ⟨hrep, fun u hu => ?_, by rw [hcur]; exact h.current, by
    rw [hidle]; exact h.idle⟩, hskel⟩
  rw [← threadOk_skeleton, hskel, wakeUp_thread]
  split
  next hm => exact (threadOk_skeleton.mpr (h.threads u hu)).woken (hw u hm)
  next => exact threadOk_skeleton.mpr (h.threads u hu)

/-! ### Creation -/

theorem enqueueInit_skeleton (entry stack : ℕ) :
    (enqueueThread (initThread s t entry stack) t).skeleton =
      (initThread s t entry stack).skeleton := enqueueThread_skeleton

theorem Wf.create (h : Wf s pc a) (ht : s.allocated t = false) {entry stack : ℕ}
    (hs : stack ≠ 0) :
    Wf (enqueueThread (initThread s t entry stack) t) (Function.update pc t .entry)
      { a with run := a.run ++ [t] } := by
  have htm : t ∉ a.run := fun hm => by
    rw [(h.rep.allocated t).mpr hm] at ht
    cases ht
  have hne : ∀ u ∈ a.run, u ≠ t := fun u hu he => htm (he ▸ hu)
  have hcur : (enqueueThread (initThread s t entry stack) t).currentThread = s.currentThread := by
    have := congrArg Scheduler.currentThread (enqueueInit_skeleton (s := s) (t := t) entry stack)
    exact this
  have hidle : (enqueueThread (initThread s t entry stack) t).idleThread = s.idleThread := by
    have := congrArg Scheduler.idleThread (enqueueInit_skeleton (s := s) (t := t) entry stack)
    exact this
  refine ⟨initThread_represents h.rep htm entry stack, fun u hu => ?_, fun c hc => ?_, ?_⟩
  · rw [← threadOk_skeleton, enqueueInit_skeleton, threadOk_skeleton]
    change ThreadOk _ (Function.update s.thread t _ u)
    rcases List.mem_append.mp hu with hu | hu
    · rw [Function.update_of_ne (hne u hu), Function.update_of_ne (hne u hu)]
      exact h.threads u hu
    · obtain rfl := List.mem_singleton.mp hu
      rw [Function.update_self, Function.update_self]
      exact ⟨⟨rfl, .inl rfl⟩, fun hw => absurd rfl hw, hs, by simp [kernelStackSize]⟩
  · rw [hcur] at hc
    exact List.mem_append_left _ (h.current c hc)
  · obtain ⟨i, hi, hii, hpc⟩ := h.idle
    refine ⟨i, List.mem_append_left _ hi, by rw [hidle]; exact hii, ?_⟩
    rw [Function.update_of_ne (hne i hi)]
    exact hpc

/-! ### Reaping and switching -/

theorem Wf.releasable (h : Wf s pc a) (ht : t ∈ a.run) (hr : reapable s t = true) :
    Releasable s t :=
  ⟨(h.threads t ht).fits.zombie_unlinked (reapable_iff.mp hr).1, (h.threads t ht).stackBase,
    (h.threads t ht).stackSize⟩

/-- The run queue after a reaping pass. -/
def Shape.reap (a : Shape) (s : Scheduler) : Shape :=
  { a with run := a.run.filter fun u => !reapable s u }

theorem Wf.reap {k : Kernel} (hf : k.locks.Free) (h : Wf k.sched pc a) :
    ∃ s', schedReapDeadThreads k = .ok { k with sched := s' } ∧ Wf s' pc (a.reap k.sched) ∧
      s'.skeleton = k.sched.skeleton.reap (a.run.filter (reapable k.sched)) := by
  obtain ⟨s', hok, hrep, hskel⟩ :=
    schedReapDeadThreads_eq hf h.rep fun t ht hr => h.releasable ht hr
  have hcur : s'.currentThread = k.sched.currentThread := by
    have := congrArg Scheduler.currentThread hskel
    exact this
  have hidle : s'.idleThread = k.sched.idleThread := by
    have := congrArg Scheduler.idleThread hskel
    exact this
  refine ⟨s', hok, ⟨hrep, fun u hu => ?_, fun c hc => ?_, ?_⟩, hskel⟩
  · obtain ⟨hm, hr⟩ := List.mem_filter.mp hu
    have hnot : u ∉ a.run.filter (reapable k.sched) := by simp_all
    rw [← threadOk_skeleton, hskel, reap_thread, if_neg hnot]
    exact threadOk_skeleton.mpr (h.threads u hm)
  · rw [hcur] at hc
    refine List.mem_filter.mpr ⟨h.current c hc, ?_⟩
    simp [reapable, hc]
  · obtain ⟨i, hi, hii, hpc⟩ := h.idle
    refine ⟨i, List.mem_filter.mpr ⟨hi, ?_⟩, by rw [hidle]; exact hii, hpc⟩
    have := h.idle_active hii
    rcases this with hst | hst <;> simp [reapable, threadIsZombie, hst]

/-- `thread_set_ready(prev)` when the previous thread is running. -/
def Scheduler.preempt (s : Scheduler) (prev : Option ThreadPtr) : Scheduler :=
  match prev with
  | some p => if (s.thread p).state = .running then s.withState p .ready 0 else s
  | none => s

theorem preempt_thread {prev : Option ThreadPtr} {u : ThreadPtr} (hu : prev ≠ some u) :
    (s.preempt prev).thread u = s.thread u := by
  cases prev with
  | none => rfl
  | some p =>
    have hne : u ≠ p := by rintro rfl; exact hu rfl
    simp only [Scheduler.preempt]
    split
    next => rw [withState_thread, if_neg hne]
    next => rfl

theorem Wf.preempt (h : Wf s pc a) {prev : Option ThreadPtr} (hp : ∀ p, prev = some p → p ∈ a.run) :
    Wf (s.preempt prev) pc a := by
  cases prev with
  | none => exact h
  | some p =>
    simp only [Scheduler.preempt]
    split
    next hr => exact h.withState ((h.threads p (hp p rfl)).preempt hr)
    next => exact h

theorem Wf.dispatch (h : Wf s pc a) (ht : t ∈ a.run) (hr : (s.thread t).state = .ready) :
    Wf (s.withState t .running (s.thread t).wakeTick) pc a :=
  h.withState ((h.threads t ht).dispatch hr)

/-- The switch from the current thread to another one. -/
def Scheduler.switchTo (s : Scheduler) (t : ThreadPtr) : Scheduler :=
  { (s.preempt s.currentThread).withState t .running (s.thread t).wakeTick with
    currentThread := some t, scheduleLocked := false }

theorem markPrev_eq (prev : Option ThreadPtr) : markPrev s prev = .ok (s.preempt prev) := by
  cases prev with
  | none => rfl
  | some p =>
    by_cases hp : (s.thread p).state = .running
    · simp [markPrev, threadIsRunning, hp, threadSetReady, threadSetWith_some,
        Scheduler.preempt, threadStateTransitionIsValid]
    · simp [markPrev, threadIsRunning, hp, Scheduler.preempt]

theorem setRunning_eq (hr : (s.thread t).state = .ready) :
    threadSetRunning s (some t) = .ok (s.withState t .running (s.thread t).wakeTick) := by
  simp [threadSetRunning, threadSetWith_some, hr, threadStateTransitionIsValid]

theorem preempt_locked (prev : Option ThreadPtr) (b : Bool) :
    ({ s with scheduleLocked := b } : Scheduler).preempt prev =
      { s.preempt prev with scheduleLocked := b } := by
  cases prev with
  | none => rfl
  | some p =>
    simp only [Scheduler.preempt]
    split <;> rfl

theorem schedSwitch_eq (hne : s.currentThread ≠ some t) (hr : (s.thread t).state = .ready) :
    schedSwitch s s.currentThread (some t) = .ok (s.switchTo t) := by
  have hthread : ({ s.preempt s.currentThread with scheduleLocked := true } :
      Scheduler).thread t = s.thread t := preempt_thread hne
  have hset := setRunning_eq (s := { s.preempt s.currentThread with scheduleLocked := true })
    (t := t) (by rw [hthread]; exact hr)
  rw [hthread] at hset
  simp only [schedSwitch, markPrev_eq, preempt_locked, hset, bind, Except.bind, pure, Except.pure]
  rfl

theorem Wf.switchTo (h : Wf s pc a) (ht : t ∈ a.run) (hne : s.currentThread ≠ some t)
    (hr : (s.thread t).state = .ready) : Wf (s.switchTo t) pc a := by
  have hp : Wf (s.preempt s.currentThread) pc a := h.preempt h.current
  have hthread : (s.preempt s.currentThread).thread t = s.thread t := preempt_thread hne
  have hd := hp.dispatch ht (by rw [hthread]; exact hr)
  rw [hthread] at hd
  refine hd.flags rfl rfl rfl rfl rfl rfl rfl fun c hc => ?_
  obtain rfl : t = c := Option.some.inj hc
  exact ht

/-- The end of `sched_yield`, once the next thread has been chosen. -/
def Scheduler.resched (s : Scheduler) (next : Option ThreadPtr) : Scheduler :=
  match next with
  | none => s
  | some t => if s.currentThread = some t then s else s.switchTo t

/-- `sched_yield` returns: it reaps, picks and switches. -/
theorem Wf.yield {k : Kernel} (hf : k.locks.Free) (hl : k.sched.scheduleLocked = false)
    (hd : k.sched.irqDepth = 0) (h : Wf k.sched pc a) :
    ∃ s, Wf s pc (a.reap k.sched) ∧
      s.skeleton = k.sched.skeleton.reap (a.run.filter (reapable k.sched)) ∧
      schedYield k = .ok { k with sched := s.resched (pick s (a.reap k.sched).run) } ∧
      Wf (s.resched (pick s (a.reap k.sched).run)) pc (a.reap k.sched) := by
  obtain ⟨s, hreap, hwf, hskel⟩ := h.reap hf
  have hassert : schedAssertCanSwitch k = .ok () := by
    simp [schedAssertCanSwitch, hl, hf.depth, hd]
  have hnext := nextRunnableThread_eq hwf.rep hwf.current
  have hready {t : ThreadPtr} (hp : pick s (a.reap k.sched).run = some t) :=
    pick_ready hwf.rep hwf.current hwf.idle_mem hp
  refine ⟨s, hwf, hskel, ?_, ?_⟩
  · simp only [schedYield, hassert, hreap, hnext, bind, Except.bind]
    cases hp : pick s (a.reap k.sched).run with
    | none => simp [Scheduler.resched, pure, Except.pure]
    | some t =>
      by_cases hc : s.currentThread = some t
      · simp [Scheduler.resched, hc, pure, Except.pure]
      · simp only [reduceCtorEq, Ne.symm hc, or_self, ↓reduceIte, Scheduler.resched, hc,
          schedSwitch_eq hc (hready hp).1, pure, Except.pure]
  · cases hp : pick s (a.reap k.sched).run with
    | none => exact hwf
    | some t =>
      simp only [Scheduler.resched]
      split
      next => exact hwf
      next hc => exact hwf.switchTo (hready hp).2 hc (hready hp).1

end

end Tianole.Sched
