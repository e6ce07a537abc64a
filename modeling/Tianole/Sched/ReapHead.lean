import Tianole.Sched.History

/-! The reaper reads `run_queue_head` before it takes the scheduler lock. Here a `sched_yield` of a
thread is two steps, the read and all that follows from the lock on, and interrupts arrive in
between. The lists stay intact as long as the head that was read is the head when the lock is
taken. -/
namespace Tianole.Sched
open Runs Links

/-! ### A call of `sched_yield` in two steps -/

/-- `sched_reap_dead_threads` from its lock on, with the head that it read before, and what it
frees. -/
def reapFrom (thread : Option ThreadPtr) (k : Kernel) : Except Stop (Kernel × List Release) := do
  let (k, reapList) ← withLock k .scheduler fun s => reapWalk s.created s none thread none
  let (s, log) ← releaseWalkLog k.sched.created k.sched reapList
  pure ({ k with sched := s }, log)

/-- `sched_yield` from the lock of the reaper on. -/
def yieldFrom (thread : Option ThreadPtr) (k : Kernel) : Except Stop (Kernel × List Release) := do
  let (k, log) ← reapFrom thread k
  let prev := k.sched.currentThread
  let next ← nextRunnableThread k.sched
  if next = none ∨ next = prev then pure (k, log)
  else do
    let s ← schedSwitch k.sched prev next
    pure ({ k with sched := s }, log)

section
variable {k k' : Kernel} {log : List Release}

/-- Without an interrupt in between, the two steps are `sched_yield`. -/
theorem yieldFrom_head (hassert : schedAssertCanSwitch k = .ok ()) :
    (yieldFrom k.sched.runQueueHead k).map Prod.fst = schedYield k := by
  have hreap : reapFrom k.sched.runQueueHead k = schedReapLog k := rfl
  simp only [yieldFrom, schedYield, hassert, ← schedReapLog_fst, hreap, bind, Except.bind]
  cases schedReapLog k with
  | error e => rfl
  | ok r =>
    simp only [Except.map]
    cases nextRunnableThread r.1.sched with
    | error e => rfl
    | ok next =>
      simp only
      by_cases hstay : next = none ∨ next = r.1.sched.currentThread
      · simp only [if_pos hstay]
        rfl
      · simp only [if_neg hstay]
        cases schedSwitch r.1.sched r.1.sched.currentThread next <;> rfl

theorem yieldFrom_log (h : yieldFrom k.sched.runQueueHead k = .ok (k', log)) :
    reapedBy k = log := by
  obtain ⟨⟨k₁, log₁⟩, hreap, hrest⟩ := bind_ok h
  obtain ⟨next, -, hrest⟩ := bind_ok hrest
  have hlog : log₁ = log := by
    split at hrest
    next => exact (Prod.mk.inj (Except.ok.inj hrest)).2
    next =>
      obtain ⟨s, -, hr⟩ := bind_ok hrest
      exact (Prod.mk.inj (Except.ok.inj hr)).2
  have hsched : schedReapLog k = .ok (k₁, log₁) := hreap
  rw [reapedBy, hsched]
  exact hlog

end

/-- A call that has read the head and not yet taken the lock, and the point behind the call. -/
structure OpenYield where
  head : Option ThreadPtr
  point : Pc
  deriving DecidableEq, Repr

/-- The call of `sched_yield` that a step makes. An interrupt exit makes its call with interrupts
masked, and has no such window. -/
def System.calls (σ : System) : Action → Option Pc
  | .thread call cond =>
      if σ.halted then none
      else match threadStep σ.kernel σ.point call cond with
        | .ok (_, .yieldTo p) => some p
        | _ => none
  | _ => none

/-- The scheduler with its history, and the open call of each context. -/
structure Windowed extends Traced where
  window : Option ThreadPtr → Option OpenYield

namespace Windowed

def current (w : Windowed) : Option ThreadPtr := w.sys.kernel.sched.currentThread

/-- `sched_assert_can_switch` and the read of the head. -/
def enter (w : Windowed) (p : Pc) : Except Stop Windowed :=
  (schedAssertCanSwitch w.sys.kernel).map fun _ =>
    let y : OpenYield := ⟨w.sys.kernel.sched.runQueueHead, p⟩
    { w with window := Function.update w.window w.current (some y) }

/-- The rest of the call. -/
def complete (w : Windowed) (y : OpenYield) : Except Stop Windowed :=
  (yieldFrom y.head w.sys.kernel).map fun r =>
    { sys := ⟨r.1, movePc w.sys.pc w.current (.yieldTo y.point)⟩
      hist := { w.hist with
        freed := w.hist.freed ++ r.2.map w.hist.release
        queued := w.hist.requeue w.current r.1.sched }
      window := Function.update w.window w.current none }

/-- Any other step. A new thread has a stack of its own, whatever was on the object before. -/
def advance (w : Windowed) (act : Action) : Except Stop Windowed :=
  (w.toTraced.step act).map fun τ =>
    ⟨τ, fun c => if c.any fun t => t ∈ w.sys.spawned act then none else w.window c⟩

def step (w : Windowed) : Action → Except Stop Windowed
  | .thread call cond =>
      match w.window w.current with
      | some y => w.complete y
      | none =>
          match w.sys.calls (.thread call cond) with
          | some p => w.enter p
          | none => w.advance (.thread call cond)
  | act => w.advance act

structure Initial (w : Windowed) : Prop where
  traced : Traced.Initial w.toTraced
  window : ∀ c, w.window c = none

/-- The states of all runs whose steps are admissible and meet `ok`. -/
def Reachable (ok : Windowed → Action → Prop) : Windowed → Prop :=
  Reach step Initial fun w act => Admissible w.sys act ∧ ok w act

/-- When a call goes on to take the lock, the head is the one that it has read. -/
def FreshHead (w : Windowed) : Action → Prop
  | .thread _ _ => ∀ y, w.window w.current = some y → y.head = w.sys.kernel.sched.runQueueHead
  | _ => True

end Windowed

/-! ### Such runs are runs of the system -/

/-- The points at which a thread calls `sched_yield`, with the points behind the call. -/
def Pc.afterYield : Pc → Option Pc
  | .entry => some .entry
  | .sleepYield => some .sleepReturn
  | .queueSleepYield q => some (.queueSleepCheck q)
  | .waitYield q => some (.waitRemove q)
  | .timeoutYield q deadline => some (.timeoutRemove q deadline)
  | .exitYield => some .exitYield
  | _ => none

section
variable {k k' : Kernel} {p r : Pc} {call : Call} {cond : Bool} {w w' : Windowed} {a : Shape}
  {y : OpenYield} {act : Action}

theorem threadStep_afterYield (h : p.afterYield = some r) :
    threadStep k p .yield cond = .ok (k, .yieldTo r) := by
  cases p <;> simp_all [Pc.afterYield, threadStep, beginCall]

theorem afterYield_of_threadStep (h : threadStep k p call cond = .ok (k', .yieldTo r)) :
    p.afterYield = some r := by
  by_cases hentry : p = .entry
  · subst hentry
    cases beginCall_cases h with
    | stays hi => cases hi; rfl
    | queueSleep q _ hlock =>
      obtain ⟨_, -, hpair⟩ := map_ok (withLock_body hlock)
      cases hpair
  have hstep := (threadStep_cases hentry h).1
  generalize k'.sched = s at hstep
  cases hstep with
  | stays hq => cases hq <;> rfl
  | timeoutCheck q deadline now hsection => cases timeoutSection_cases hsection

theorem System.calls_some {σ : System} (h : σ.calls act = some r) :
    σ.halted = false ∧ σ.point.afterYield = some r := by
  cases act with
  | thread call cond =>
    simp only [System.calls] at h
    split at h
    next => cases h
    next hh =>
      split at h
      next k p hstep =>
        obtain rfl := Option.some.inj h
        exact ⟨by simpa using hh, afterYield_of_threadStep hstep⟩
      next => cases h
  | tick | wake _ _ | irqExit => cases h

/-- The open calls of the live contexts: none is the idle thread's, and each stands at a point
that calls `sched_yield`. -/
structure WindowOk (w : Windowed) (a : Shape) : Prop where
  thread : ∀ c ∈ a.run, ∀ y, w.window (some c) = some y →
    w.sys.kernel.sched.idleThread ≠ some c ∧ (w.sys.pc c).afterYield = some y.point
  boot : ∀ y, w.window none = some y → y.point = .entry

theorem WindowOk.current (h : WindowOk w a) (hl : Lockstep w.toTraced a)
    (hy : w.window w.current = some y) :
    w.sys.halted = false ∧ w.sys.point.afterYield = some y.point := by
  rw [System.halted_iff]
  unfold Windowed.current at hy
  unfold System.point
  cases hc : w.sys.kernel.sched.currentThread with
  | none =>
    rw [hc] at hy
    refine ⟨by simp, ?_⟩
    rw [h.boot y hy]
    rfl
  | some c =>
    rw [hc] at hy
    obtain ⟨hidle, hpoint⟩ := h.thread c (hl.inv.base.wf.current c hc) y hy
    refine ⟨fun d hd => ?_, hpoint⟩
    obtain rfl := Option.some.inj hd
    exact hidle

theorem Base.assertCanSwitch {pc : ThreadPtr → Pc} (h : Base k pc a) :
    schedAssertCanSwitch k = .ok () := by
  simp [schedAssertCanSwitch, h.unlocked, h.free.depth, h.depth]

/-- The rest of a call is a step of the system if the head is fresh. -/
theorem complete_traced (hl : Lockstep w.toTraced a) (hw : WindowOk w a)
    (hy : w.window w.current = some y) (hfresh : y.head = w.sys.kernel.sched.runQueueHead) :
    (w.complete y).map Windowed.toTraced = w.toTraced.step (.thread .yield false) := by
  obtain ⟨hawake, hpoint⟩ := hw.current hl hy
  have hstep : threadStep w.sys.kernel w.sys.point .yield false =
      .ok (w.sys.kernel, .yieldTo y.point) := threadStep_afterYield hpoint
  have hspawned : w.sys.spawned (.thread .yield false) = [] := by
    simp [System.spawned, hawake, hstep, Control.threads]
  have hreleased : w.sys.released (.thread .yield false) = reapedBy w.sys.kernel := by
    simp [System.released, hawake, hstep]
  have hsystem : w.sys.step (.thread .yield false) = (yieldFrom y.head w.sys.kernel).map
      fun r => ⟨r.1, movePc w.sys.pc w.current (.yieldTo y.point)⟩ := by
    have hyield := yieldFrom_head hl.inv.base.assertCanSwitch
    simp only [System.step, hawake, Bool.false_eq_true, ↓reduceIte, hstep, Except.bind,
      System.finish, hfresh]
    rw [← hyield]
    cases yieldFrom w.sys.kernel.sched.runQueueHead w.sys.kernel <;> rfl
  rw [Traced.step, hsystem, Windowed.complete]
  cases hfrom : yieldFrom y.head w.sys.kernel with
  | error e => rfl
  | ok r =>
    rw [hfresh] at hfrom
    have hlog : reapedBy w.sys.kernel = r.2 := yieldFrom_log hfrom
    simp only [Except.map, History.record, hspawned, hreleased, hlog, List.foldl_nil,
      System.exits, List.map_nil, List.append_nil]
    rfl

/-- The open call of a context stays as it is while the context does not move. -/
theorem WindowOk.kept {σ' : System} {a' : Shape} {made : List ThreadPtr} {gone : List Release}
    {c : ThreadPtr} (hw : WindowOk w a) (hl : Lockstep w.toTraced a)
    (hcase : StepCase w.sys a act σ' a' made gone) (hadm : Admissible w.sys act)
    (hc : c ∈ a'.run) (hmade : c ∉ made)
    (hrests : ∀ call cond, act = .thread call cond → w.current ≠ some c)
    (hy : w.window (some c) = some y) :
    σ'.kernel.sched.idleThread ≠ some c ∧ (σ'.pc c).afterYield = some y.point := by
  have hold : c ∈ a.run := by
    rw [hcase.run] at hc
    rcases List.mem_append.mp hc with hm | hm
    · exact (List.mem_filter.mp hm).1
    · exact absurd hm hmade
  obtain ⟨hne, hpoint⟩ := hw.thread c hold y hy
  have hidle := (hcase.switching hl.inv hadm).1
  refine ⟨hidle ▸ hne, ?_⟩
  rcases hcase.moves hmade with ⟨call, cond, hact, -, hcur, -⟩ | ⟨hpc, -⟩
  · exact absurd hcur (hrests call cond hact)
  · rw [hpc]
    exact hpoint

/-- Every other step is one of the system. -/
theorem WindowOk.advance (hw : WindowOk w a) (hl : Lockstep w.toTraced a)
    (hadm : Admissible w.sys act) (hclosed : ∀ call cond, act = .thread call cond →
      w.window w.current = none) (hs : w.advance act = .ok w') :
    ∃ a', Lockstep w'.toTraced a' ∧ WindowOk w' a' := by
  obtain ⟨τ, htraced, rfl⟩ := map_ok hs
  obtain ⟨a', hl', hcase⟩ := hl.step hadm htraced
  refine ⟨a', hl', fun c hc y hy => ?_, fun y hy => hw.boot y hy⟩
  simp only at hy
  split at hy
  next => cases hy
  next hnew =>
    refine hw.kept hl hcase hadm hc (by simpa using hnew) (fun call cond hact hcur => ?_) hy
    have hnone := hclosed call cond hact
    rw [hcur, hy] at hnone
    cases hnone

/-- The read of the head changes nothing. -/
theorem WindowOk.enter (hw : WindowOk w a) (hl : Lockstep w.toTraced a)
    (hcalls : w.sys.calls act = some p) (hs : w.enter p = .ok w') :
    Lockstep w'.toTraced a ∧ WindowOk w' a := by
  obtain ⟨hh, hpoint⟩ := System.calls_some hcalls
  obtain ⟨-, -, rfl⟩ := map_ok hs
  refine ⟨hl, fun c hc y hy => ?_, fun y hy => ?_⟩
  · simp only [Function.update_apply] at hy
    split at hy
    next hcur =>
      obtain rfl := Option.some.inj hy
      have hcur' : w.sys.kernel.sched.currentThread = some c := hcur.symm
      refine ⟨System.halted_iff.mp hh c hcur', ?_⟩
      simpa [System.point, hcur'] using hpoint
    next => exact hw.thread c hc y hy
  · simp only [Function.update_apply] at hy
    split at hy
    next hcur =>
      obtain rfl := Option.some.inj hy
      have hcur' : w.sys.kernel.sched.currentThread = none := hcur.symm
      simpa [System.point, hcur', Pc.afterYield] using hpoint.symm
    next => exact hw.boot y hy

theorem WindowOk.complete (hw : WindowOk w a) (hl : Lockstep w.toTraced a)
    (hy : w.window w.current = some y) (hfresh : y.head = w.sys.kernel.sched.runQueueHead)
    (hs : w.complete y = .ok w') : ∃ a', Lockstep w'.toTraced a' ∧ WindowOk w' a' := by
  have htraced := complete_traced hl hw hy hfresh
  rw [hs] at htraced
  obtain ⟨hawake, hpoint⟩ := hw.current hl hy
  have hyields : w.sys.Yields (.thread .yield false) :=
    ⟨hawake, _, _, threadStep_afterYield hpoint⟩
  have hadm : Admissible w.sys (.thread .yield false) := trivial
  obtain ⟨a', hl', hcase⟩ := hl.step hadm htraced.symm
  obtain ⟨-, hmade, -⟩ := hcase.of_yields hyields
  have hwindow : w'.window = Function.update w.window w.current none := by
    obtain ⟨r, -, rfl⟩ := map_ok hs
    rfl
  refine ⟨a', hl', fun c hc y' hy' => ?_, fun y' hy' => ?_⟩
  · rw [hwindow, Function.update_apply] at hy'
    split at hy'
    next => cases hy'
    next hcur =>
      exact hw.kept hl hcase hadm hc (by simp [hmade]) (fun _ _ _ he => hcur he.symm) hy'
  · rw [hwindow, Function.update_apply] at hy'
    split at hy'
    next => cases hy'
    next => exact hw.boot y' hy'

theorem WindowOk.step (hw : WindowOk w a) (hl : Lockstep w.toTraced a)
    (hadm : Admissible w.sys act) (hfresh : w.FreshHead act) (hs : w.step act = .ok w') :
    ∃ a', Lockstep w'.toTraced a' ∧ WindowOk w' a' := by
  cases act with
  | tick | wake _ _ | irqExit => exact hw.advance hl hadm (by simp) hs
  | thread call cond =>
    simp only [Windowed.step] at hs
    split at hs
    next y hy => exact hw.complete hl hy (hfresh y hy) hs
    next hclosed =>
      split at hs
      next p hcalls => exact ⟨a, hw.enter hl hcalls hs⟩
      next => exact hw.advance hl hadm (fun _ _ _ => hclosed) hs

theorem Windowed.Reachable.lockstep (h : Windowed.Reachable Windowed.FreshHead w) :
    ∃ a, Lockstep w.toTraced a ∧ WindowOk w a := by
  refine Reach.invariant (I := fun w => ∃ a, Lockstep w.toTraced a ∧ WindowOk w a) h ?_ ?_
  · intro w hi
    exact ⟨_, hi.traced.lockstep, by simp [hi.window], by simp [hi.window]⟩
  · rintro w act w' ⟨a, hl, hw⟩ ⟨hadm, hfresh⟩ hs
    exact hw.step hl hadm hfresh hs

/-- The panics with which a step can end. -/
theorem WindowOk.step_error {e : Stop} (hw : WindowOk w a) (hl : Lockstep w.toTraced a)
    (hadm : Admissible w.sys act) (hfresh : w.FreshHead act) (hs : w.step act = .error e) :
    e = .panic .invalidThreadStateTransition ∨ e = .panic .exitWithoutCurrent ∨
      e = .panic .wakeupNonWaiting := by
  cases act with
  | tick | wake _ _ | irqExit => exact hl.step_error hadm (map_error hs)
  | thread call cond =>
    simp only [Windowed.step] at hs
    split at hs
    next y hy =>
      have htraced := complete_traced hl hw hy (hfresh y hy)
      rw [hs] at htraced
      have hyield : Admissible w.sys (.thread .yield false) := trivial
      exact hl.step_error hyield htraced.symm
    next =>
      split at hs
      next p hcalls =>
        have hassert := map_error hs
        rw [hl.inv.base.assertCanSwitch] at hassert
        cases hassert
      next => exact hl.step_error hadm (map_error hs)

end

/-- Boot with the given thread objects, one of them for the idle thread. -/
def Windowed.boot (objects : List ThreadPtr) (idle : ThreadPtr) : Windowed :=
  ⟨Traced.boot objects idle, fun _ => none⟩

theorem Windowed.boot_reachable {ok : Windowed → Action → Prop} (objects : List ThreadPtr)
    (idle : ThreadPtr) (hn : objects.Nodup) (hi : idle ∈ (Traced.boot objects idle).hist.alive) :
    Windowed.Reachable ok (.boot objects idle) :=
  .start ⟨Traced.boot_initial objects idle hn hi, fun _ => rfl⟩

instance (σ : System) : (act : Action) → Decidable (Admissible σ act)
  | .thread call _ => inferInstanceAs (Decidable (Fresh σ.kernel.sched call))
  | .tick | .wake _ _ | .irqExit => isTrue trivial

instance (w : Windowed) : (act : Action) → Decidable (w.FreshHead act)
  | .thread _ _ =>
      match h : w.window w.current with
      | none => isTrue fun y hy => by rw [h] at hy; cases hy
      | some y => decidable_of_iff (y.head = w.sys.kernel.sched.runQueueHead)
          ⟨fun he z hz => by rw [h] at hz; cases hz; exact he, fun hf => hf y h⟩
  | .tick | .wake _ _ | .irqExit => isTrue trivial

end Tianole.Sched
