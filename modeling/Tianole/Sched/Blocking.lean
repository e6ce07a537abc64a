import Tianole.Sched.System

/-! When the calling thread of `sched_yield` comes back running, and that then no state
transition is rejected. -/
namespace Tianole.Sched
open Runs Links

section
variable {k : Kernel} {s : Scheduler} {a : Shape} {pc : ThreadPtr → Pc} {c : ThreadPtr}
  {q : QueuePtr} {call : Call} {cond : Bool} {e : Stop}

/-! ### What can fail -/

/-- The failure of a transition, and who meets it. -/
def Rejected (x : Thread) (e : Stop) : Prop :=
  e = .panic .invalidThreadStateTransition ∧ x.state = .ready

theorem threadSetWith_error {state : ThreadState} {wake : ℕ → ℕ} (ha : Active (s.thread c))
    (hv : state = .sleeping ∨ state = .waiting ∨ state = .zombie)
    (hs : threadSetWith s (some c) state wake = .error e) : Rejected (s.thread c) e := by
  rw [threadSetWith_some] at hs
  split at hs
  next => cases hs
  next hn =>
    refine ⟨(Except.error.inj hs).symm, ha.resolve_right fun hr => hn ?_⟩
    rw [hr]
    rcases hv with rfl | rfl | rfl <;> rfl

theorem blockWaiting_error (h : Wf s pc a) (hc : s.currentThread = some c)
    (hq : (s.thread c).waitQueue = none) (ha : Active (s.thread c))
    (hs : blockWaiting s q = .error e) : Rejected (s.thread c) e := by
  obtain ⟨s₁, hen, -, hskel⟩ := waitQueueEnqueueLocked_eq (q := q) h.rep (h.current c hc) hq
  have hcur : s₁.currentThread = some c := by
    have := congrArg Scheduler.currentThread hskel
    exact this.trans hc
  have hstate : (s₁.thread c).state = (s.thread c).state := by
    rw [← skeleton_state, hskel, withOwner_thread, if_pos rfl]
    rfl
  simp only [blockWaiting, enqueueCurrent, hc, hen, bind, Except.bind, hcur] at hs
  have ha' : Active (s₁.thread c) := by simpa [Active, hstate] using ha
  obtain ⟨he, hr⟩ := threadSetWith_error ha' (.inr (.inl rfl)) hs
  exact ⟨he, hstate ▸ hr⟩

theorem timeoutSection_error {deadline now : ℕ} (h : Wf s pc a) (hc : s.currentThread = some c)
    (hq : (s.thread c).waitQueue = none) (ha : Active (s.thread c))
    (hs : timeoutSection s q deadline now cond = .error e) : Rejected (s.thread c) e := by
  unfold timeoutSection at hs
  split at hs
  next => simp [clearWakeTick, hc, Except.map] at hs
  next =>
    split at hs
    next => simp [clearWakeTick, hc, Except.map] at hs
    next =>
      rcases bind_error hs with hset | ⟨s₁, hset, hs⟩
      · rw [hc] at hset
        exact threadSetWith_error ha (.inl rfl) hset
      · rw [hc] at hset
        obtain ⟨-, rfl⟩ := threadSetWith_ok hset
        obtain ⟨s₂, hen, -⟩ := waitQueueEnqueueLocked_eq (q := q)
          (h.rep.withState c .sleeping deadline) (h.current c hc) (by simpa using hq)
        have hcur : (s.withState c .sleeping deadline).currentThread = some c := hc
        simp only [enqueueCurrent, hcur, hen, bind, Except.bind] at hs
        cases hs

theorem schedThreadExit_error (hc : s.currentThread = some c) (ha : Active (s.thread c))
    (hs : schedThreadExit s = .error e) : Rejected (s.thread c) e := by
  have hz : (threadIsZombie s (some c) || threadIsDead s (some c)) = false := by
    rcases ha with ha | ha <;> simp [threadIsZombie, threadIsDead, ha]
  simp only [schedThreadExit, hc, reduceCtorEq, ↓reduceIte, hz, Bool.false_eq_true] at hs
  exact threadSetWith_error ha (.inr (.inr rfl)) hs

/-- A wakeup fails only on a thread that it must not wake. -/
theorem waitQueueWake_error {kind : WakeKind} {queue : Option QueuePtr} (hf : k.locks.Free)
    (h : Wf k.sched pc a) (hs : waitQueueWake kind k queue = .error e) :
    e = .panic .wakeupNonWaiting ∧
      ∃ q, queue = some q ∧ ∃ t ∈ kind.removed (a.wait q), ¬ Waitable k.sched t := by
  cases queue with
  | none => cases hs
  | some q =>
    have hlock : withLock k (.queue q) (fun s =>
        (wakeLocked kind s (some q)).map fun s => (s, ())) = .error e := by
      rcases bind_error hs with hs | ⟨_, -, hs⟩
      · exact hs
      · cases hs
    have hwake := map_error (withLock_error hf hlock)
    by_cases hall : ∀ t ∈ kind.removed (a.wait q), Waitable k.sched t
    · obtain ⟨s', hok, -⟩ := h.wake kind q hall
      rw [hok] at hwake
      cases hwake
    · push Not at hall
      rw [(wakeLocked_eq h.rep kind q).2 hall] at hwake
      exact ⟨(Except.error.inj hwake).symm, q, rfl, hall⟩

theorem kernelThreadCreate_ok (hf : k.locks.Free) (entry : ℕ) (object : Option ThreadPtr)
    (stack : ℕ) : ∃ r, kernelThreadCreate k entry object stack = .ok r := by
  unfold kernelThreadCreate
  split
  next => exact ⟨_, rfl⟩
  next =>
    cases object with
    | none => exact ⟨_, rfl⟩
    | some t =>
      simp only
      split
      next => exact ⟨_, rfl⟩
      next => exact ⟨_, withLock_eq (hf.locked _) _⟩

theorem beginCall_create_ok (hf : k.locks.Free) (cond : Bool) (entry : ℕ)
    (object : Option ThreadPtr) (stack : ℕ) :
    ∃ r, beginCall k cond (.create entry object stack) = .ok r := by
  obtain ⟨r, hok⟩ := kernelThreadCreate_ok hf entry object stack
  simp only [beginCall, hok]
  exact ⟨_, rfl⟩

theorem assert_ok (hl : k.sched.scheduleLocked = false) (hf : k.locks.Free)
    (hd : k.sched.irqDepth = 0) : schedAssertCanSwitch k = .ok () := by
  simp [schedAssertCanSwitch, hl, hf.depth, hd]

/-- How a call can fail: a ready thread tries to block, or a wakeup meets a thread that is
not blocked. -/
theorem beginCall_error (h : Base k pc a) (hc : k.sched.currentThread = some c)
    (hq : (k.sched.thread c).waitQueue = none) (ha : Active (k.sched.thread c))
    (hs : beginCall k cond call = .error e) : Rejected (k.sched.thread c) e ∨
      ∃ kind queue, call = .wake kind queue ∧ waitQueueWake kind k queue = .error e := by
  have hassert := assert_ok h.unlocked h.free h.depth
  cases call with
  | yield => cases hs
  | sleep ticks =>
    simp only [beginCall, hassert, bind, Except.bind] at hs
    split at hs <;> cases hs
  | queueSleep queue =>
    cases queue with
    | none => cases hs
    | some q =>
      simp only [beginCall, hc, reduceCtorEq, ↓reduceIte, hassert, bind, Except.bind] at hs
      exact .inl (blockWaiting_error h.wf hc hq ha (map_error (withLock_error h.free hs)))
  | wait queue hasCondition =>
    cases queue with
    | none => cases hs
    | some q =>
      simp only [beginCall, hassert, bind, Except.bind] at hs
      split at hs <;> cases hs
  | waitTimeout queue hasCondition ticks =>
    cases queue with
    | none => cases hs
    | some q =>
      simp only [beginCall, hassert, bind, Except.bind] at hs
      split at hs
      next => cases hs
      next =>
        split at hs
        next => cases hs
        next => split at hs <;> cases hs
  | wake kind queue =>
    rcases bind_error hs with hs | ⟨_, -, hs⟩
    · exact .inr ⟨kind, queue, rfl, hs⟩
    · cases hs
  | create entry object stack =>
    obtain ⟨r, hok⟩ := beginCall_create_ok h.free cond entry object stack
    cases hok.symm.trans hs
  | exit =>
    rcases bind_error hs with hs | ⟨_, -, hs⟩
    · exact .inl (schedThreadExit_error hc ha hs)
    · cases hs

theorem threadStep_error (h : Base k pc a) (hc : k.sched.currentThread = some c)
    (hawake : (pc c).yields ∨ Active (k.sched.thread c))
    (hs : threadStep k (pc c) call cond = .error e) : Rejected (k.sched.thread c) e ∨
      pc c = .entry ∧ ∃ kind queue, call = .wake kind queue ∧
        waitQueueWake kind k queue = .error e := by
  have hm := h.wf.current c hc
  have hfit := (h.wf.threads c hm).fits
  have ha : Active (k.sched.thread c) := by
    refine hawake.resolve_left fun hy => ?_
    obtain ⟨r, hr⟩ := threadStep_yields k call cond hy
    rw [hr] at hs
    cases hs
  cases hpc : pc c with
  | entry =>
    rw [hpc] at hs hfit
    exact (beginCall_error h hc hfit.1 ha hs).imp_right fun hw => ⟨rfl, hw⟩
  | sleepMark wakeTick =>
    rw [hpc] at hs
    rcases bind_error hs with hs | ⟨_, -, hs⟩
    · rw [hc] at hs
      exact .inl (threadSetWith_error ha (.inl rfl) hs)
    · cases hs
  | queueSleepCheck q =>
    rw [hpc, threadStep] at hs
    have := withLock_error h.free hs
    split at this <;> cases this
  | waitCheck q =>
    rw [hpc] at hs hfit
    rw [threadStep] at hs
    have hbody := withLock_error h.free hs
    split at hbody
    next => cases hbody
    next => exact .inl (blockWaiting_error h.wf hc hfit.1 ha (map_error hbody))
  | waitRemove q | timeoutRemove q _ =>
    rw [hpc, threadStep] at hs
    have hbody := map_error (withLock_error h.free hs)
    obtain ⟨s', b, hok, -⟩ := waitQueueRemoveLocked_eq (q := q) h.wf.rep hm
    rw [hc, hok] at hbody
    cases hbody
  | timeoutCheck q deadline now =>
    rw [hpc] at hs hfit
    rw [threadStep] at hs
    exact .inl (timeoutSection_error h.wf hc hfit.1 ha (withLock_error h.free hs))
  | sleepYield | sleepReturn | queueSleepYield _ | waitYield _ | timeoutDeadline _ _
  | timeoutNow _ _ | timeoutYield _ _ | exitYield =>
    rw [hpc] at hs
    cases hs

theorem beginCall_boot_error (h : Base k pc a) (hc : k.sched.currentThread = none)
    (hs : beginCall k cond call = .error e) : e = .panic .exitWithoutCurrent ∨
      ∃ kind queue, call = .wake kind queue ∧ waitQueueWake kind k queue = .error e := by
  cases call with
  | yield => cases hs
  | sleep ticks => simp [beginCall, hc] at hs
  | queueSleep queue => cases queue <;> simp [beginCall, hc] at hs
  | wait queue hasCondition => cases queue <;> simp [beginCall, hc] at hs
  | waitTimeout queue hasCondition ticks => cases queue <;> simp [beginCall, hc] at hs
  | wake kind queue =>
    rcases bind_error hs with hs | ⟨_, -, hs⟩
    · exact .inr ⟨kind, queue, rfl, hs⟩
    · cases hs
  | create entry object stack =>
    obtain ⟨r, hok⟩ := beginCall_create_ok h.free cond entry object stack
    cases hok.symm.trans hs
  | exit =>
    simp only [beginCall, schedThreadExit, hc, ↓reduceIte, bind, Except.bind] at hs
    exact .inl (Except.error.inj hs).symm

theorem irqExit_ok {σ : System} (h : Base σ.kernel σ.pc a) : ∃ σ', σ.step .irqExit = .ok σ' := by
  by_cases hy : (!σ.kernel.sched.needResched || σ.kernel.sched.currentThread.isNone ||
      σ.kernel.sched.scheduleLocked) = true
  · refine ⟨⟨⟨σ.kernel.sched, σ.kernel.locks⟩, σ.pc⟩, ?_⟩
    simp only [System.step, schedIrqExit, schedIrqLeave_enter h.depth, if_pos hy, bind,
      Except.bind]
    rfl
  · obtain ⟨s', hyield, -⟩ := h.clearResched.yield
    refine ⟨⟨⟨s', σ.kernel.locks⟩, σ.pc⟩, ?_⟩
    simp only [System.step, schedIrqExit, schedIrqLeave_enter h.depth, if_neg hy, bind,
      Except.bind, ↓reduceIte, hyield, Except.map]

/-- The wakeups of a step, on a queue that is not null. -/
def System.Wakes (σ : System) (kind : WakeKind) (q : QueuePtr) : Action → Prop
  | .wake kind' queue => kind' = kind ∧ queue = some q
  | .thread call _ => σ.halted = false ∧ σ.point = .entry ∧ call = .wake kind (some q)
  | _ => False

/-- The only panics of the system: a ready thread tries to block, a wakeup meets a thread
that is not blocked, or the boot context tries to exit. -/
theorem Inv.step_error {σ : System} {act : Action} {strict : Bool} (h : Inv strict σ a)
    (hadm : Admissible σ act) (hs : σ.step act = .error e) :
    (strict = false ∧ e = .panic .invalidThreadStateTransition) ∨
      e = .panic .exitWithoutCurrent ∨
      e = .panic .wakeupNonWaiting ∧ ∃ kind q, σ.Wakes kind q act ∧
        ∃ t ∈ kind.removed (a.wait q), ¬ Waitable σ.kernel.sched t := by
  cases act with
  | tick =>
    have := map_error hs
    rw [timerTick_eq h.base.wf.rep] at this
    cases this
  | wake kind queue =>
    obtain ⟨he, q, rfl, hq⟩ := waitQueueWake_error h.base.free h.base.wf (map_error hs)
    exact .inr (.inr ⟨he, kind, q, ⟨rfl, rfl⟩, hq⟩)
  | irqExit =>
    obtain ⟨σ', hok⟩ := irqExit_ok h.base
    rw [hok] at hs
    cases hs
  | thread call cond =>
    simp only [System.step] at hs
    split at hs
    next => cases hs
    next hh =>
      replace hh : σ.halted = false := by simpa using hh
      have hwakes (hpt : σ.point = .entry) : (∃ kind queue, call = .wake kind queue ∧
          waitQueueWake kind σ.kernel queue = .error e) →
          e = .panic .wakeupNonWaiting ∧ ∃ kind q, σ.Wakes kind q (.thread call cond) ∧
            ∃ t ∈ kind.removed (a.wait q), ¬ Waitable σ.kernel.sched t := by
        rintro ⟨kind, queue, rfl, hw⟩
        obtain ⟨he, q, rfl, hq⟩ := waitQueueWake_error h.base.free h.base.wf hw
        exact ⟨he, kind, q, ⟨hh, hpt, rfl⟩, hq⟩
      rcases bind_error hs with hstep | ⟨⟨k, control⟩, hstep, hfin⟩
      · cases hc : σ.kernel.sched.currentThread with
        | none =>
          have hpoint : σ.point = .entry := by simp [System.point, hc]
          rw [hpoint] at hstep
          rcases beginCall_boot_error h.base hc hstep with he | hw
          · exact .inr (.inl he)
          · exact .inr (.inr (hwakes hpoint hw))
        | some c =>
          have hpoint : σ.point = σ.pc c := by simp [System.point, hc]
          rw [hpoint] at hstep
          have hawake := h.awake c hc
          rcases threadStep_error h.base hc (hawake.imp_right
            fun hr => hr.elim .inr fun hr => .inl hr.2) hstep with ⟨he, hr⟩ | ⟨hpc, hw⟩
          · refine .inl ⟨?_, he⟩
            rcases hawake with hy | hrun | ⟨hst, -⟩
            · obtain ⟨r, hr⟩ := threadStep_yields σ.kernel call cond hy
              rw [hr] at hstep
              cases hstep
            · rw [hr] at hrun
              cases hrun
            · exact hst
          · exact .inr (.inr (hwakes (hpoint.trans hpc) hw))
      · have hso := h.stepOk hh hadm hstep
        obtain ⟨a', -, hbase⟩ := hso.base h.base (System.halted_iff.mp hh)
        rcases hso.point with ⟨p, rfl, rfl⟩ | ⟨hny, -⟩
        · obtain ⟨s', hy, -⟩ := hbase.yield
          have := map_error hfin
          rw [hy] at this
          cases this
        · cases control <;> simp_all [System.finish]

end

/-! ### Runs -/

/-- Whoever calls `sched_yield` is not ready itself, or is not the only ready thread. -/
def YieldsInCompany (σ : System) (act : Action) : Prop := σ.Yields act → ¬ Alone σ.kernel.sched

theorem Base.step_yields {σ σ' : System} {act : Action} {strict : Bool} {a : Shape}
    (h : Inv strict σ a) (hadm : Admissible σ act) (hy : σ.Yields act)
    (hs : σ.step act = .ok σ') :
    (∃ c, σ'.kernel.sched.currentThread = some c ∧
      (σ'.kernel.sched.thread c).state = .running) ↔ ¬ Alone σ.kernel.sched := by
  cases act with
  | tick => exact hy.elim
  | wake kind queue => exact hy.elim
  | thread call cond =>
    obtain ⟨hh, k, p, hstep⟩ := hy
    simp only [System.step, hh, Bool.false_eq_true, ↓reduceIte, hstep, Except.bind] at hs
    have hso := h.stepOk hh hadm hstep
    obtain ⟨a', -, hbase⟩ := hso.base h.base (System.halted_iff.mp hh)
    obtain rfl : k = σ.kernel := by
      rcases hso.point with ⟨-, -, hk⟩ | ⟨hny, -⟩
      · exact hk
      · exact absurd rfl (hny p)
    obtain ⟨s', hyield, -, -, hiff⟩ := hbase.yield
    obtain ⟨k', hk', rfl⟩ := map_ok hs
    obtain rfl := Except.ok.inj (hyield.symm.trans hk')
    exact hiff
  | irqExit =>
    obtain ⟨s, hleave⟩ := hy
    obtain ⟨k', hexit, rfl⟩ := map_ok hs
    simp only [schedIrqExit, hleave, bind, Except.bind, ↓reduceIte] at hexit
    obtain rfl := schedIrqLeave_ok h.base.depth hleave
    obtain ⟨s', hyield, -, -, hiff⟩ := h.base.clearResched.yield
    obtain rfl := Except.ok.inj (hyield.symm.trans hexit)
    exact hiff

/-- As long as nobody has called `sched_yield` while ready and alone, no transition of a
thread state is rejected, and the next `sched_yield` leaves a running thread exactly when its
caller is in company too. -/
theorem yieldsInCompany_safe {σ : System} {act : Action} (h : Reachable YieldsInCompany σ)
    (hadm : Admissible σ act) :
    σ.step act ≠ .error (.panic .invalidThreadStateTransition) ∧
      ∀ σ', σ.Yields act → σ.step act = .ok σ' →
        ((∃ c, σ'.kernel.sched.currentThread = some c ∧
          (σ'.kernel.sched.thread c).state = .running) ↔ ¬ Alone σ.kernel.sched) := by
  obtain ⟨a, hinv⟩ := reachable_inv true h fun _ _ _ ho => ho
  refine ⟨fun hs => ?_, fun σ' hy hs => Base.step_yields hinv hadm hy hs⟩
  rcases hinv.step_error hadm hs with ⟨he, -⟩ | he | ⟨he, -⟩ <;> cases he

theorem boot_reachable {ok : System → Action → Prop} {objects : List ThreadPtr}
    {idle : ThreadPtr} (hn : objects.Nodup) (hi : idle ∈ objects) :
    Reachable ok (.boot objects idle) := .start ⟨objects, boot_initial hn hi⟩

/-- The caller is not ready, or another thread of the run queue is. -/
def accompanied (run : List ThreadPtr) (s : Scheduler) : Bool :=
  decide (Path s.links s.runQueueHead run none) && s.currentThread.all fun c =>
    decide ((s.thread c).state ≠ .ready) || run.any fun u => decide (u ≠ c) && runnable s u

theorem not_alone_of_accompanied {run : List ThreadPtr} {s : Scheduler}
    (h : accompanied run s = true) : ¬ Alone s := by
  rintro ⟨c, hc, hready, hothers⟩
  simp only [accompanied, hc, Option.all_some, hready, Bool.and_eq_true, decide_eq_true_eq, ne_eq,
    not_true_eq_false, decide_false, Bool.false_or, List.any_eq_true] at h
  obtain ⟨hpath, u, hu, hne, hr⟩ := h
  rw [hothers u ⟨run, hpath, hu⟩ hne] at hr
  cases hr

/-- Thread 2 goes to sleep, and the timer wakes it before it has yielded. Thread 3 is ready, so
the yield leaves a running thread, and the next sleep of thread 2 is not rejected. -/
theorem yieldsInCompany_safe_woken : ∃ σ σ' τ : System, Reachable YieldsInCompany σ ∧
    σ.kernel.sched.currentThread = some 2 ∧ (σ.kernel.sched.thread 2).state = .ready ∧
    σ.step (.thread .yield false) = .ok σ' ∧
    (∃ c, σ'.kernel.sched.currentThread = some c ∧
      (σ'.kernel.sched.thread c).state = .running) ∧
    Reachable YieldsInCompany τ ∧ τ.point = .sleepMark 2 ∧
    τ.step (.thread .yield false) ≠ .error (.panic .invalidThreadStateTransition) := by
  let ok (σ : System) (act : Action) : Prop := accompanied [1, 2, 3] σ.kernel.sched = true ∧
    act ∈ [.thread .yield false, .thread (.sleep 1) false, .tick]
  have hok (σ : System) (act : Action) (h : ok σ act) :
      Admissible σ act ∧ YieldsInCompany σ act := by
    obtain ⟨hcompany, hact⟩ := h
    refine ⟨?_, fun _ => not_alone_of_accompanied hcompany⟩
    simp only [List.mem_cons, List.not_mem_nil, or_false] at hact
    rcases hact with rfl | rfl | rfl <;> trivial
  have hboot : Reach System.step (fun σ => ∃ run, Initial σ run) ok (.boot [1, 2, 3] 1) :=
    .start ⟨[1, 2, 3], boot_initial (by decide) (by decide)⟩
  let toWake : List Action :=
    [.thread .yield false, .thread (.sleep 1) false, .thread .yield false, .tick]
  obtain ⟨σ, hr, hσ⟩ := hboot.admitted_map (f := fun σ => (accompanied [1, 2, 3] σ.kernel.sched,
      σ.kernel.sched.currentThread, (σ.kernel.sched.thread 2).state, σ.point, σ.halted,
      (σ.step (.thread .yield false)).map fun _ => ()))
    toWake (b := (true, some 2, .ready, .sleepYield, false, .ok ())) rfl
  simp only [Prod.mk.injEq] at hσ
  obtain ⟨hcompany, hcur, hready, hpoint, hawake, hstep⟩ := hσ
  obtain ⟨σ', hσ', -⟩ := map_ok hstep
  obtain ⟨τ, hτ, hmark⟩ := hboot.admitted_map (f := System.point)
    (toWake ++ [.thread .yield false, .thread .yield false, .thread .yield false,
      .thread (.sleep 1) false]) (b := .sleepMark 2) rfl
  have hadm (σ : System) : Admissible σ (.thread .yield false) := trivial
  have hyields : σ.Yields (.thread .yield false) := by
    refine ⟨hawake, σ.kernel, .sleepReturn, ?_⟩
    rw [hpoint, threadStep]
  have hrσ : Reachable YieldsInCompany σ := hr.mono hok
  have hrτ : Reachable YieldsInCompany τ := hτ.mono hok
  exact ⟨σ, σ', τ, hrσ, hcur, hready, hσ',
    ((yieldsInCompany_safe hrσ (hadm σ)).2 σ' hyields hσ').mpr (not_alone_of_accompanied hcompany),
    hrτ, hmark, (yieldsInCompany_safe hrτ (hadm τ)).1⟩

/-- A sleeper that the timer wakes before it has yielded comes back ready, and its next
sleep is rejected. -/
theorem early_wakeup_rejected : ∃ σ act, Reachable (fun _ _ => True) σ ∧ Admissible σ act ∧
    σ.step act = .error (.panic .invalidThreadStateTransition) := by
  have hboot : Reachable (fun _ _ => True) (.boot [1, 2] 1) :=
    boot_reachable (by decide) (by decide)
  obtain ⟨σ, act, hr, hok, hs⟩ := Reach.exec_error hboot
    [.thread .yield false, .thread (.sleep 1) false, .thread .yield false, .tick, .irqExit,
      .thread .yield false, .thread .yield false, .thread (.sleep 1) false,
      .thread .yield false] (by simp [Admissible, Fresh])
    (e := .panic .invalidThreadStateTransition) rfl
  exact ⟨σ, act, hr, hok.1, hs⟩

end Tianole.Sched
