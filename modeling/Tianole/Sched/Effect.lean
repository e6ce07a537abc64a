import Tianole.Sched.Blocking

/-! What a step does to the lists of the scheduler, stated as functions on lists: the wait
queues after a step of the running context, the threads that a reaping pass releases, and
the run queue that is left. -/
namespace Tianole.Sched
open Runs Links

/-- The lists after a wakeup. -/
def Shape.wake (a : Shape) (kind : WakeKind) : Option QueuePtr → Shape
  | none => a
  | some q => { a with wait := Function.update a.wait q (kind.left (a.wait q)) }

/-- The lists after the first step of a call, apart from created threads. -/
def Shape.afterCall (a : Shape) (current : Option ThreadPtr) : Call → Shape
  | .queueSleep (some q) => current.elim a (a.join q)
  | .wake kind queue => a.wake kind queue
  | _ => a

/-- The lists after a step of the running context that stands at the given point. -/
def Shape.afterStep (a : Shape) (current : Option ThreadPtr) (call : Call) (cond : Bool) :
    Pc → Shape
  | .entry => a.afterCall current call
  | .waitCheck q => if cond then a else current.elim a (a.join q)
  | .timeoutCheck q deadline now =>
      if cond ∨ deadline ≤ now then a else current.elim a (a.join q)
  | .waitRemove q | .timeoutRemove q _ => current.elim a (a.leave q)
  | _ => a

/-- A section that leaves the lists `b` and keeps the stack of every thread not in `made`. -/
structure Effect (s s' : Scheduler) (b : Shape) (made : List ThreadPtr) : Prop where
  rep : Represents s' b
  stack : ∀ u ∉ made, (s'.thread u).stackBase = (s.thread u).stackBase

section
variable {s s' : Scheduler} {a b : Shape} {c : ThreadPtr} {q : QueuePtr} {m : List ThreadPtr}
  {f : Thread → Thread}

theorem Represents.effect (h : Represents s a) : Effect s s a m := ⟨h, fun _ _ => rfl⟩

/-- The lists are determined by the links. -/
theorem Represents.unique (h : Represents s a) (h' : Represents s b) : a = b := by
  obtain ⟨run, wait⟩ := a
  obtain ⟨run', wait'⟩ := b
  have hrun : run = run' := path_unique h.run h'.run
  have hwait : wait = wait' := funext fun q => path_unique (h.wait q) (h'.wait q)
  rw [hrun, hwait]

theorem stack_of_skeleton (hskel : s'.skeleton = s.skeleton.modifyThread c f)
    (hf : ∀ x, (f x).stackBase = x.stackBase) (u : ThreadPtr) :
    (s'.thread u).stackBase = (s.thread u).stackBase := by
  have hthread : (s'.skeleton.thread u).stackBase =
      ((s.skeleton.modifyThread c f).thread u).stackBase := by rw [hskel]
  refine hthread.trans ?_
  rw [Scheduler.modifyThread_thread]
  split
  next he => rw [hf, he]; rfl
  next => rfl

theorem setState_effect {state : ThreadState} {wake : ℕ → ℕ} (h : Represents s a)
    (hs : threadSetWith s (some c) state wake = .ok s') : Effect s s' a m := by
  obtain ⟨-, rfl⟩ := threadSetWith_ok hs
  exact ⟨h.withState _ _ _,
    fun u _ => stack_of_skeleton (skeleton_withState_modify _ _) (fun _ => rfl) u⟩

theorem Represents.effect_of_skeleton (h : Represents s' b)
    (hskel : s'.skeleton = s.skeleton.modifyThread c f)
    (hf : ∀ x, (f x).stackBase = x.stackBase) : Effect s s' b m :=
  ⟨h, fun u _ => stack_of_skeleton hskel hf u⟩

theorem blockWaiting_effect (h : Represents s a) (hc : s.currentThread = some c)
    (hm : c ∈ a.run) (ho : (s.thread c).waitQueue = none) (hs : blockWaiting s q = .ok s') :
    Effect s s' (a.join q c) m := by
  obtain ⟨hrep, hskel⟩ := blockWaiting_spec h hc hm ho hs
  exact hrep.effect_of_skeleton hskel fun _ => rfl

theorem removeCurrent_effect {found : Bool} (h : Represents s a) (hm : c ∈ a.run)
    (hs : waitQueueRemoveLocked s q (some c) = .ok (s', found)) :
    Effect s s' (a.leave q c) m := by
  obtain ⟨s₁, b, hok, hrep, hskel⟩ := waitQueueRemoveLocked_eq (q := q) h hm
  obtain ⟨rfl, -⟩ := Prod.mk.inj (Except.ok.inj (hok.symm.trans hs))
  refine ⟨hrep, fun u _ => ?_⟩
  split at hskel
  next => exact stack_of_skeleton hskel (fun _ => rfl) u
  next =>
    have hthread := congrArg (fun s => (s.thread u).stackBase) hskel
    exact hthread

theorem timeoutSection_effect {deadline now : ℕ} {cond : Bool} {control : Control}
    (h : Represents s a) (hc : s.currentThread = some c) (hm : c ∈ a.run)
    (ho : (s.thread c).waitQueue = none)
    (hs : timeoutSection s q deadline now cond = .ok (s', control)) :
    Effect s s' (if cond ∨ deadline ≤ now then a else a.join q c) m := by
  cases timeoutSection_cases hs with
  | returns v hv hclear =>
    obtain ⟨hrep, hskel⟩ := clearWakeTick_spec h hc hclear
    have hreturns : cond ∨ deadline ≤ now := hv.imp And.left fun hv => hv.2.1
    rw [if_pos hreturns]
    exact hrep.effect_of_skeleton hskel fun _ => rfl
  | blocks hcond hearly hset hen =>
    obtain ⟨hrep, hskel⟩ := sleepEnqueue_spec h hc hm ho hset hen
    rw [if_neg (by simp [hcond, hearly])]
    exact hrep.effect_of_skeleton hskel fun _ => rfl

theorem waitQueueWake_effect {k k' : Kernel} {kind : WakeKind} {queue : Option QueuePtr}
    (hf : k.locks.Free) (h : Represents k.sched a) (hs : waitQueueWake kind k queue = .ok k') :
    Effect k.sched k'.sched (a.wake kind queue) m := by
  cases queue with
  | none =>
    obtain rfl := Except.ok.inj hs
    exact h.effect
  | some q =>
    obtain ⟨⟨k₁, u⟩, hlock, hk⟩ := bind_ok hs
    obtain rfl := Except.ok.inj hk
    obtain ⟨hbody, -⟩ := withLock_ok hf hlock
    obtain ⟨s₁, hwake, hpair⟩ := map_ok hbody
    obtain ⟨rfl, -⟩ := Prod.mk.inj hpair
    obtain ⟨hgood, hbad⟩ := wakeLocked_eq h kind q
    by_cases hall : ∀ t ∈ kind.removed (a.wait q), Waitable k.sched t
    · obtain ⟨s₂, hok, hrep, hskel⟩ := hgood hall
      obtain rfl := Except.ok.inj (hwake.symm.trans hok)
      refine ⟨hrep, fun u _ => ?_⟩
      have hthread := congrArg (fun s => (s.thread u).stackBase) hskel
      refine hthread.trans ?_
      simp only [wakeUp_thread]
      split <;> rfl
    · push Not at hall
      rw [hbad hall] at hwake
      cases hwake

/-- The lists with the created threads at the end of the run queue. -/
def Shape.grow (a : Shape) (made : List ThreadPtr) : Shape := { a with run := a.run ++ made }

@[simp] theorem Shape.grow_nil (a : Shape) : a.grow [] = a := by
  simp [Shape.grow]

theorem kernelThreadCreate_effect {k k' : Kernel} {entry stack : ℕ}
    {object made : Option ThreadPtr} (hf : k.locks.Free) (h : Represents k.sched a)
    (hfresh : Fresh k.sched (.create entry object stack))
    (hs : kernelThreadCreate k entry object stack = .ok (k', made)) :
    Effect k.sched k'.sched (a.grow (Control.spawned made).threads)
      (Control.spawned made).threads := by
  rcases kernelThreadCreate_cases hs with ⟨rfl, rfl⟩ | ⟨t, rfl, -, hlock⟩
  · simp only [Control.threads, Shape.grow_nil]
    exact h.effect
  · obtain ⟨hbody, -⟩ := withLock_ok hf hlock
    obtain ⟨hsched, rfl⟩ := Prod.mk.inj (Except.ok.inj hbody)
    have htm : t ∉ a.run := fun hm => by
      rw [Fresh, (h.allocated t).mpr hm] at hfresh
      cases hfresh
    rw [← hsched]
    refine ⟨initThread_represents h htm entry stack, fun u hu => ?_⟩
    have hne : u ≠ t := by simpa [Control.threads] using hu
    have hskel := congrArg (fun s => (s.thread u).stackBase)
      (enqueueInit_skeleton (s := k.sched) (t := t) entry stack)
    refine hskel.trans ?_
    change (Function.update k.sched.thread t _ u).stackBase = _
    rw [Function.update_of_ne hne]

variable {k k' : Kernel} {pc : ThreadPtr → Pc} {control : Control} {call : Call} {cond : Bool}

theorem PcStep.threads {p : Pc} (h : PcStep s cond p s' control) : control.threads = [] := by
  cases h with
  | stays hq => cases hq <;> rfl
  | timeoutCheck q deadline now hsection => cases timeoutSection_cases hsection <;> rfl
  | sleepMark | waitBlocks | waitRemove | timeoutRemove => rfl

theorem PcStays.afterStep {p : Pc} (h : PcStays s cond p control) (current : Option ThreadPtr) :
    a.afterStep current call cond p = a := by
  cases h with
  | waitReturns q hcond => rw [hcond]; rfl
  | _ => rfl

theorem Immediate.afterCall (h : Immediate k call control) :
    a.afterCall k.sched.currentThread call = a := by
  cases h with
  | queueSleepReturns queue hnone =>
    rcases hnone with rfl | hnone
    · rfl
    · rw [hnone]
      cases queue <;> rfl
  | _ => rfl

/-- A call moves the lists as `afterCall` says, and appends the threads it creates. -/
theorem beginCall_effect (hf : k.locks.Free) (h : Represents k.sched a)
    (hm : ∀ c, k.sched.currentThread = some c → c ∈ a.run ∧ (k.sched.thread c).waitQueue = none)
    (hfresh : Fresh k.sched call) (hs : beginCall k cond call = .ok (k', control)) :
    Effect k.sched k'.sched ((a.afterCall k.sched.currentThread call).grow control.threads)
      control.threads := by
  cases beginCall_cases hs with
  | stays hstays =>
    rw [hstays.afterCall, hstays.threads, Shape.grow_nil]
    exact h.effect
  | queueSleep q hsome hlock =>
    obtain ⟨c, hc⟩ := Option.ne_none_iff_exists'.mp hsome
    obtain ⟨hbody, -⟩ := withLock_ok hf hlock
    obtain ⟨s₁, hb, hpair⟩ := map_ok hbody
    obtain ⟨rfl, rfl⟩ := Prod.mk.inj hpair
    rw [hc]
    simp only [Shape.afterCall, Option.elim_some, Control.threads, Shape.grow_nil]
    exact blockWaiting_effect h hc (hm c hc).1 (hm c hc).2 hb
  | wake kind queue hw =>
    simp only [Shape.afterCall, Control.threads, Shape.grow_nil]
    exact waitQueueWake_effect hf h hw
  | create entry object stack made hw => exact kernelThreadCreate_effect hf h hfresh hw
  | exit s hw =>
    simp only [Shape.afterCall, Control.threads, Shape.grow_nil]
    obtain ⟨c, hc, hset⟩ := schedThreadExit_ok hw
    rw [threadSetZombie, hc] at hset
    exact setState_effect h hset

/-- A step moves the lists as `afterStep` says, wherever the running thread stands. -/
theorem threadStep_effect (hf : k.locks.Free) (h : Wf k.sched pc a)
    (hc : k.sched.currentThread = some c) (hfresh : Fresh k.sched call)
    (hs : threadStep k (pc c) call cond = .ok (k', control)) :
    Effect k.sched k'.sched ((a.afterStep (some c) call cond (pc c)).grow control.threads)
      control.threads := by
  have hm := h.current c hc
  have hfit := (h.threads c hm).fits
  by_cases hentry : pc c = .entry
  · rw [hentry] at hs hfit ⊢
    rw [Shape.afterStep, ← hc]
    refine beginCall_effect hf h.rep (fun c' hc' => ?_) hfresh hs
    obtain rfl := Option.some.inj (hc.symm.trans hc')
    exact ⟨hm, hfit.1⟩
  have hstep := (threadStep_cases hentry hs).1
  rw [hstep.threads, Shape.grow_nil]
  generalize pc c = p at hstep hfit
  generalize k'.sched = s' at hstep
  cases hstep with
  | stays hq =>
    rw [hq.afterStep]
    exact h.rep.effect
  | sleepMark wakeTick hset =>
    rw [threadSetSleeping, hc] at hset
    exact setState_effect h.rep hset
  | waitBlocks q hcond hblock =>
    subst hcond
    exact blockWaiting_effect h.rep hc hm hfit.1 hblock
  | waitRemove q hremove | timeoutRemove q _ hremove =>
    rw [hc] at hremove
    exact removeCurrent_effect h.rep hm hremove
  | timeoutCheck q deadline now hsection => exact timeoutSection_effect h.rep hc hm hfit.1 hsection

end

/-! ### What the reaper frees -/

/-- The arguments of the two `kfree` calls of one `release_thread`. -/
structure Release where
  object : ThreadPtr
  stack : ℕ
  deriving DecidableEq, Repr

/-- `releaseWalk` with a log of what it frees. -/
def releaseWalkLog : ℕ → Scheduler → Option ThreadPtr → Except Stop (Scheduler × List Release)
  | _, s, none => .ok (s, [])
  | 0, _, some _ => .error .hang
  | n + 1, s, some t => do
      let next := (s.thread t).next
      let s := s.setNext t none
      let freed := ⟨t, (s.thread t).stackBase⟩
      let s ← releaseThread s t
      let (s, log) ← releaseWalkLog n s next
      pure (s, freed :: log)

/-- `schedReapDeadThreads` with a log of what it frees. -/
def schedReapLog (k : Kernel) : Except Stop (Kernel × List Release) := do
  let thread := k.sched.runQueueHead
  let (k, reapList) ← withLock k .scheduler fun s => reapWalk s.created s none thread none
  let (s, log) ← releaseWalkLog k.sched.created k.sched reapList
  pure ({ k with sched := s }, log)

theorem releaseWalkLog_fst (n : ℕ) (s : Scheduler) (p : Option ThreadPtr) :
    (releaseWalkLog n s p).map Prod.fst = releaseWalk n s p := by
  induction n generalizing s p with
  | zero => cases p <;> rfl
  | succ n ih =>
    cases p with
    | none => rfl
    | some t =>
      simp only [releaseWalkLog, releaseWalk, bind, Except.bind]
      cases releaseThread (s.setNext t none) t with
      | error e => rfl
      | ok s₁ =>
        simp only
        rw [← ih s₁]
        cases releaseWalkLog n s₁ (s.thread t).next <;> rfl

/-- The log does not disturb the pass. -/
theorem schedReapLog_fst (k : Kernel) :
    (schedReapLog k).map Prod.fst = schedReapDeadThreads k := by
  simp only [schedReapLog, schedReapDeadThreads, bind, Except.bind]
  cases withLock k .scheduler fun s => reapWalk s.created s none k.sched.runQueueHead none with
  | error e => rfl
  | ok r =>
    simp only [← releaseWalkLog_fst]
    cases releaseWalkLog r.1.sched.created r.1.sched r.2 <;> rfl

section
variable {s s' : Scheduler} {a : Shape} {k : Kernel}

theorem releaseThread_thread {t : ThreadPtr} (h : releaseThread s t = .ok s') :
    s'.thread = s.thread := by
  unfold releaseThread at h
  split_ifs at h
  cases h
  rfl

theorem releaseWalkLog_eq {n : ℕ} {p : Option ThreadPtr} {dead : List ThreadPtr}
    (hp : Path s.links p dead none) (h : releaseWalk n s p = .ok s') :
    releaseWalkLog n s p = .ok (s', dead.map fun t => ⟨t, (s.thread t).stackBase⟩) := by
  induction dead generalizing s p n with
  | nil =>
    obtain rfl : p = none := hp
    cases n <;> cases h <;> rfl
  | cons t dead ih =>
    have ht := (List.nodup_cons.mp (path_nodup hp)).1
    obtain ⟨rfl, hp⟩ := hp
    cases n with
    | zero => cases h
    | succ n =>
      obtain ⟨s₁, hrel, hrest⟩ := bind_ok h
      have hthread : s₁.thread = (s.setNext t none).thread := releaseThread_thread hrel
      have hlinks : s₁.links = Function.update s.links t none := by
        rw [← s.links_setNext t none]
        funext u
        simp only [Scheduler.links, hthread]
      have hlog := ih (by rw [hlinks]; exact (path_update ht).mpr hp) hrest
      have hself : ((s.setNext t none).thread t).stackBase = (s.thread t).stackBase := by
        rw [Scheduler.setNext, Scheduler.modifyThread_self]
      have hother : ∀ u ∈ dead, s₁.thread u = s.thread u := by
        intro u hu
        rw [hthread]
        exact Function.update_of_ne (by rintro rfl; exact ht hu) _ _
      simp only [releaseWalkLog, hrel, bind, Except.bind, hlog, hself, pure, Except.pure,
        List.map_cons]
      rw [List.map_congr_left fun u hu => by rw [hother u hu]]

/-- A reaping pass frees the zombies of the run queue, the current thread apart. -/
theorem schedReapLog_eq {k' : Kernel} (hf : k.locks.Free) (h : Represents k.sched a)
    (hs : schedReapDeadThreads k = .ok k') :
    schedReapLog k = .ok (k', (a.run.filter (reapable k.sched)).reverse.map fun t =>
      ⟨t, (k.sched.thread t).stackBase⟩) := by
  have hstart : ReapLists k.sched ([] ++ a.run) [] none := ⟨h.run, h.runTail, rfl⟩
  obtain ⟨s₁, reapList, hwalk, hlists, hskel, -, -⟩ := reapWalk_eq hstart (by simp) h.created
  have hlock := withLock_eq (hf.locked .scheduler)
    fun s => reapWalk s.created s none k.sched.runQueueHead none
  have hhead : k.sched.runQueueHead = a.run.head? := path_head h.run
  rw [List.getLast?_nil, ← hhead] at hwalk
  rw [hwalk] at hlock
  obtain ⟨⟨k₁, p⟩, hlock', hrest⟩ := bind_ok hs
  obtain ⟨rfl, rfl⟩ := Prod.mk.inj (Except.ok.inj (hlock.symm.trans hlock'))
  obtain ⟨s₂, hrel, hk⟩ := bind_ok hrest
  obtain rfl := Except.ok.inj hk
  have hdead : Path s₁.links reapList (a.run.filter (reapable k.sched)).reverse none := by
    simpa using hlists.dead
  have hstack (u : ThreadPtr) : (s₁.thread u).stackBase = (k.sched.thread u).stackBase := by
    have hthread := congrArg (fun s => (s.thread u).stackBase) hskel
    refine hthread.trans ?_
    simp only [Scheduler.bury]
    split <;> rfl
  simp only [schedReapLog, hlock, Except.map, bind, Except.bind, releaseWalkLog_eq hdead hrel,
    hstack, pure, Except.pure]

end

/-! ### What a step of the system can do -/

/-- The threads that a step creates. -/
def System.spawned (σ : System) : Action → List ThreadPtr
  | .thread call cond =>
      if σ.halted then []
      else match threadStep σ.kernel σ.point call cond with
        | .ok (_, control) => control.threads
        | .error _ => []
  | _ => []

/-- The thread that calls `kernel_thread_exit` in a step. -/
def System.exits (σ : System) : Action → List ThreadPtr
  | .thread .exit _ =>
      if σ.halted = false ∧ σ.point = .entry then σ.kernel.sched.currentThread.toList else []
  | _ => []

/-- What the reaping pass of a step frees. -/
def reapedBy (k : Kernel) : List Release :=
  match schedReapLog k with
  | .ok (_, log) => log
  | .error _ => []

/-- What a step frees: the reaping pass of the `sched_yield` that it calls. -/
def System.released (σ : System) : Action → List Release
  | .thread call cond =>
      if σ.halted then []
      else match threadStep σ.kernel σ.point call cond with
        | .ok (k, .yieldTo _) => reapedBy k
        | _ => []
  | .irqExit =>
      match schedIrqLeave (schedIrqEnter σ.kernel.sched) with
      | .ok (s, true) => reapedBy ⟨s, σ.kernel.locks⟩
      | _ => []
  | _ => []

/-- The zombies that a reaping pass finds, with their stacks, in the order of release. -/
def Shape.zombies (a : Shape) (s : Scheduler) : List Release :=
  (a.run.filter (reapable s)).reverse.map fun t => ⟨t, (s.thread t).stackBase⟩

/-- The state in which `sched_yield` leaves a scheduler with the lists `a`: zombies are gone
and the next thread has been picked from the rest. An interrupt exit has cleared
`need_resched` before. -/
def Yielded (s : Scheduler) (a : Shape) (pc : ThreadPtr → Pc) (s' : Scheduler) : Prop :=
  ∃ r flag, Wf r pc (a.reap s) ∧ s' = r.resched (pick r (a.reap s).run) ∧
    r.skeleton = ({ s with needResched := flag } : Scheduler).skeleton.reap
      (a.run.filter (reapable s))

/-- Everything a step can do to a system whose lists are `a`: the new state and its lists,
the threads created and the memory freed. -/
inductive StepCase (σ : System) (a : Shape) :
    Action → System → Shape → List ThreadPtr → List Release → Prop
  | rest (act : Action) : ¬ σ.Yields act → (∀ kind queue, act ≠ .wake kind queue) →
      act ≠ .tick → (∀ call cond, act = .thread call cond → σ.halted = true) →
      StepCase σ a act σ a [] []
  | tick : StepCase σ a .tick ⟨⟨σ.kernel.sched.ticked a.run, σ.kernel.locks⟩, σ.pc⟩ a [] []
  | wake (kind : WakeKind) (queue : Option QueuePtr) (k : Kernel) :
      waitQueueWake kind σ.kernel queue = .ok k →
      StepCase σ a (.wake kind queue) ⟨k, σ.pc⟩ (a.wake kind queue) [] []
  | thread (call : Call) (cond : Bool) (k : Kernel) (control : Control) : σ.halted = false →
      threadStep σ.kernel σ.point call cond = .ok (k, control) → (∀ p, control ≠ .yieldTo p) →
      StepCase σ a (.thread call cond) ⟨k, movePc σ.pc σ.kernel.sched.currentThread control⟩
        ((a.afterStep σ.kernel.sched.currentThread call cond σ.point).grow control.threads)
        control.threads []
  | yield (act : Action) (pc : ThreadPtr → Pc) (s : Scheduler) : σ.Yields act →
      (act = .irqExit ∧ pc = σ.pc ∨ ∃ call cond p, act = .thread call cond ∧
        threadStep σ.kernel σ.point call cond = .ok (σ.kernel, .yieldTo p) ∧
        pc = movePc σ.pc σ.kernel.sched.currentThread (.yieldTo p)) →
      Yielded σ.kernel.sched a pc s →
      StepCase σ a act ⟨⟨s, σ.kernel.locks⟩, pc⟩ (a.reap σ.kernel.sched) []
        (a.zombies σ.kernel.sched)

section
variable {σ σ' : System} {a : Shape} {act : Action} {strict : Bool}

theorem Base.reapedBy_eq {k : Kernel} {pc : ThreadPtr → Pc} (h : Base k pc a) :
    reapedBy k = a.zombies k.sched := by
  obtain ⟨s', hreap, -⟩ := h.wf.reap h.free
  rw [reapedBy, schedReapLog_eq h.free h.wf.rep hreap]
  rfl

theorem Base.yielded {k k' : Kernel} {pc : ThreadPtr → Pc} (h : Base k pc a)
    (hs : schedYield k = .ok k') : ∃ s, k' = ⟨s, k.locks⟩ ∧ Represents s (a.reap k.sched) ∧
      Yielded k.sched a pc s := by
  obtain ⟨r, hwf, hskel, hyield, hwf'⟩ := h.wf.yield h.free h.unlocked h.depth
  obtain rfl := Except.ok.inj (hyield.symm.trans hs)
  exact ⟨_, rfl, hwf'.rep, r, k.sched.needResched, hwf, rfl, hskel⟩

/-- The lists after a step of the running context, thread or not. -/
theorem Inv.thread_effect (h : Inv strict σ a) {k : Kernel} {call : Call} {cond : Bool}
    {control : Control} (hadm : Admissible σ (.thread call cond))
    (hs : threadStep σ.kernel σ.point call cond = .ok (k, control)) :
    Effect σ.kernel.sched k.sched ((a.afterStep σ.kernel.sched.currentThread call cond
      σ.point).grow control.threads) control.threads := by
  unfold System.point at hs ⊢
  cases hc : σ.kernel.sched.currentThread with
  | none =>
    rw [hc] at hs
    have heffect := beginCall_effect h.base.free h.base.wf.rep (by simp [hc]) hadm hs
    rwa [hc] at heffect
  | some c =>
    rw [hc] at hs
    exact threadStep_effect h.base.free h.base.wf hc hadm hs

/-- The exit from an interrupt yields or leaves everything as it was. -/
theorem Inv.irqExit_case (h : Inv false σ a) (hs : σ.step .irqExit = .ok σ') :
    ∃ b, Represents σ'.kernel.sched b ∧
      StepCase σ a .irqExit σ' b (σ.spawned .irqExit) (σ.released .irqExit) := by
  obtain ⟨k', hexit, rfl⟩ := map_ok hs
  obtain ⟨⟨s, resched⟩, hleave, hrest⟩ := bind_ok hexit
  have hreleased : σ.released .irqExit = if resched then reapedBy ⟨s, σ.kernel.locks⟩ else [] := by
    simp only [System.released, hleave]
    cases resched <;> rfl
  have hyields (hy : σ.Yields .irqExit) : resched = true := by
    obtain ⟨s', hs'⟩ := hy
    exact (Prod.mk.inj (Except.ok.inj (hleave.symm.trans hs'))).2
  rw [hreleased]
  cases resched with
  | false =>
    obtain rfl := Except.ok.inj hrest
    obtain rfl : s = σ.kernel.sched := schedIrqLeave_ok h.base.depth hleave
    refine ⟨a, h.base.wf.rep, .rest _ (fun hy => ?_) (by simp) (by simp) (by simp)⟩
    cases hyields hy
  | true =>
    obtain rfl : s = { σ.kernel.sched with needResched := false } :=
      schedIrqLeave_ok h.base.depth hleave
    have hbase := h.base.clearResched
    obtain ⟨s', rfl, hrep, r, flag, hwf, hs', hskel⟩ := hbase.yielded hrest
    refine ⟨_, hrep, ?_⟩
    rw [if_pos rfl, hbase.reapedBy_eq]
    exact .yield _ _ _ ⟨_, hleave⟩ (.inl ⟨rfl, rfl⟩) ⟨r, flag, hwf, hs', hskel⟩

/-- The running context does nothing, moves on or yields. -/
theorem Inv.thread_case (h : Inv false σ a) {call : Call} {cond : Bool}
    (hadm : Admissible σ (.thread call cond)) (hs : σ.step (.thread call cond) = .ok σ') :
    ∃ b, Represents σ'.kernel.sched b ∧ StepCase σ a (.thread call cond) σ' b
      (σ.spawned (.thread call cond)) (σ.released (.thread call cond)) := by
  simp only [System.step] at hs
  split at hs
  next hh =>
    obtain rfl := Except.ok.inj hs
    simp only [System.spawned, System.released, hh, ↓reduceIte]
    refine ⟨a, h.base.wf.rep, .rest _ (fun hy => ?_) (by simp) (by simp) fun _ _ _ => hh⟩
    rw [hy.1] at hh
    cases hh
  next hh =>
    replace hh : σ.halted = false := by simpa using hh
    obtain ⟨⟨k, control⟩, hstep, hfin⟩ := bind_ok hs
    have hso := h.stepOk hh hadm hstep
    obtain ⟨b, hrun, hbase⟩ := hso.base h.base (System.halted_iff.mp hh)
    simp only [System.spawned, System.released, hh, Bool.false_eq_true, ↓reduceIte, hstep]
    rcases hso.point with ⟨p, rfl, rfl⟩ | ⟨hny, -⟩
    · obtain ⟨k', hyield, rfl⟩ := map_ok hfin
      obtain rfl : b = a := hbase.wf.rep.unique h.base.wf.rep
      obtain ⟨s', rfl, hrep, hy⟩ := hbase.yielded hyield
      refine ⟨_, hrep, ?_⟩
      simp only [hbase.reapedBy_eq]
      exact .yield _ _ _ ⟨hh, _, p, hstep⟩ (.inr ⟨call, cond, p, rfl, hstep, rfl⟩) hy
    · have hσ : σ' = ⟨k, movePc σ.pc σ.kernel.sched.currentThread control⟩ := by
        cases control <;> simp_all [System.finish]
      subst hσ
      refine ⟨_, (h.thread_effect hadm hstep).rep, ?_⟩
      have hcase := StepCase.thread (a := a) call cond k control hh hstep hny
      cases control with
      | yieldTo p => exact absurd rfl (hny p)
      | goto p => exact hcase
      | ret v => exact hcase
      | spawned t => exact hcase

/-- Every step of a system with the invariant is one of these. -/
theorem Inv.step_cases (h : Inv false σ a) (hadm : Admissible σ act)
    (hs : σ.step act = .ok σ') : ∃ a', Inv false σ' a' ∧
      StepCase σ a act σ' a' (σ.spawned act) (σ.released act) := by
  obtain ⟨a', hinv⟩ := h.step hadm (by simp) hs
  suffices hcase : ∃ b, Represents σ'.kernel.sched b ∧
      StepCase σ a act σ' b (σ.spawned act) (σ.released act) by
    obtain ⟨b, hrep, hcase⟩ := hcase
    obtain rfl := hinv.base.wf.rep.unique hrep
    exact ⟨a', hinv, hcase⟩
  cases act with
  | tick =>
    obtain ⟨s, ht, rfl⟩ := map_ok hs
    rw [timerTick_eq h.base.wf.rep] at ht
    obtain rfl := Except.ok.inj ht
    exact ⟨a, h.base.wf.tick.rep, .tick⟩
  | wake kind queue =>
    obtain ⟨k, hw, rfl⟩ := map_ok hs
    exact ⟨_, (waitQueueWake_effect (m := []) h.base.free h.base.wf.rep hw).rep,
      .wake kind queue k hw⟩
  | irqExit => exact h.irqExit_case hs
  | thread call cond => exact h.thread_case hadm hs

/-- A queue keeps its order: threads leave it, or the running thread joins at the end. -/
def WaitStep (current : Option ThreadPtr) (l l' : List ThreadPtr) : Prop :=
  l'.Sublist l ∨ ∃ c, current = some c ∧ l' = l ++ [c]

theorem WaitStep.refl (current : Option ThreadPtr) (l : List ThreadPtr) :
    WaitStep current l l := .inl (List.Sublist.refl l)

theorem WaitStep.update {current : Option ThreadPtr} {w : QueuePtr → List ThreadPtr}
    {p : QueuePtr} {l : List ThreadPtr} (h : WaitStep current (w p) l) (q : QueuePtr) :
    WaitStep current (w q) (Function.update w p l q) := by
  by_cases hq : q = p
  · subst hq
    rwa [Function.update_self]
  · rw [Function.update_of_ne hq]
    exact .refl _ _

theorem Shape.join_waits (a : Shape) (p : QueuePtr) (current : Option ThreadPtr) (q : QueuePtr) :
    WaitStep current (a.wait q) ((current.elim a (a.join p)).wait q) := by
  cases current with
  | none => exact .refl _ _
  | some c => exact WaitStep.update (.inr ⟨c, rfl, rfl⟩) q

theorem sublist_update {w : QueuePtr → List ThreadPtr} {p : QueuePtr} {l : List ThreadPtr}
    (h : l.Sublist (w p)) (q : QueuePtr) : (Function.update w p l q).Sublist (w q) := by
  by_cases hq : q = p
  · subst hq
    rwa [Function.update_self]
  · rw [Function.update_of_ne hq]

theorem Shape.leave_sublist (a : Shape) (p : QueuePtr) (current : Option ThreadPtr)
    (q : QueuePtr) : ((current.elim a (a.leave p)).wait q).Sublist (a.wait q) := by
  cases current with
  | none => exact List.Sublist.refl _
  | some c => exact sublist_update List.erase_sublist q

theorem Shape.wake_sublist (a : Shape) (kind : WakeKind) (queue : Option QueuePtr)
    (q : QueuePtr) : ((a.wake kind queue).wait q).Sublist (a.wait q) := by
  cases queue with
  | none => exact List.Sublist.refl _
  | some p =>
    refine sublist_update ?_ q
    cases kind with
    | one => exact List.drop_sublist 1 _
    | all => exact List.nil_sublist _

/-- What a step does to the lists: it wakes threads, or the running thread joins or leaves a
queue. -/
inductive Shape.Move (a : Shape) (current : Option ThreadPtr) (call : Call) (cond : Bool)
    (pc : Pc) : Shape → Prop
  | stays : Move a current call cond pc a
  | wakes (kind : WakeKind) (queue : Option QueuePtr) :
      Move a current call cond pc (a.wake kind queue)
  | leaves (p : QueuePtr) : Move a current call cond pc (current.elim a (a.leave p))
  | joins (p : QueuePtr) : (pc = .entry ∧ call = .queueSleep (some p)) ∨
      (pc = .waitCheck p ∧ cond = false) ∨ (∃ deadline now, pc = .timeoutCheck p deadline now) →
      Move a current call cond pc (current.elim a (a.join p))

theorem Shape.afterStep_move (a : Shape) (current : Option ThreadPtr) (call : Call) (cond : Bool)
    (pc : Pc) : a.Move current call cond pc (a.afterStep current call cond pc) := by
  cases pc with
  | entry =>
    cases call with
    | queueSleep queue =>
      cases queue with
      | none => exact .stays
      | some p => exact .joins p (.inl ⟨rfl, rfl⟩)
    | wake kind queue => exact .wakes kind queue
    | yield | sleep _ | wait _ _ | waitTimeout _ _ _ | create _ _ _ | exit => exact .stays
  | waitCheck p =>
    cases cond with
    | true => exact .stays
    | false => exact .joins p (.inr (.inl ⟨rfl, rfl⟩))
  | timeoutCheck p deadline now =>
    rw [Shape.afterStep]
    split
    next => exact .stays
    next => exact .joins p (.inr (.inr ⟨deadline, now, rfl⟩))
  | waitRemove p | timeoutRemove p _ => exact .leaves p
  | sleepMark _ | sleepYield | sleepReturn | queueSleepYield _ | queueSleepCheck _ | waitYield _
  | timeoutDeadline _ _ | timeoutNow _ _ | timeoutYield _ _ | exitYield => exact .stays

theorem Shape.afterStep_waits (a : Shape) (current : Option ThreadPtr) (call : Call)
    (cond : Bool) (pc : Pc) (q : QueuePtr) :
    WaitStep current (a.wait q) ((a.afterStep current call cond pc).wait q) := by
  have hmove := a.afterStep_move current call cond pc
  generalize a.afterStep current call cond pc = b at hmove
  cases hmove with
  | stays => exact .refl _ _
  | wakes kind queue => exact .inl (a.wake_sublist kind queue q)
  | leaves p => exact .inl (a.leave_sublist p current q)
  | joins p => exact a.join_waits p current q

theorem Shape.afterStep_run (a : Shape) (current : Option ThreadPtr) (call : Call) (cond : Bool)
    (pc : Pc) : (a.afterStep current call cond pc).run = a.run := by
  have hmove := a.afterStep_move current call cond pc
  generalize a.afterStep current call cond pc = b at hmove
  cases hmove with
  | stays => rfl
  | wakes kind queue => cases queue <;> rfl
  | leaves | joins => cases current <;> rfl

variable {a' : Shape} {made : List ThreadPtr} {gone : List Release}

theorem StepCase.waits (h : StepCase σ a act σ' a' made gone) (q : QueuePtr) :
    WaitStep σ.kernel.sched.currentThread (a.wait q) (a'.wait q) := by
  cases h with
  | rest | tick | yield => exact .refl _ _
  | wake kind queue => exact .inl (a.wake_sublist kind queue q)
  | thread call cond => exact a.afterStep_waits _ call cond _ q

theorem mem_zombies {s : Scheduler} {t : ThreadPtr} :
    t ∈ (a.zombies s).map Release.object ↔ t ∈ a.run ∧ reapable s t = true := by
  simp [Shape.zombies, Function.comp_def]

/-- Released threads leave the run queue, created ones join at its end, and nothing else
changes there. -/
theorem StepCase.run (h : StepCase σ a act σ' a' made gone) :
    a'.run = a.run.filter (fun t => decide (t ∉ gone.map Release.object)) ++ made := by
  cases h with
  | rest | tick => simp
  | wake kind queue => cases queue <;> simp [Shape.wake]
  | thread call cond k control =>
    rw [Shape.grow, Shape.afterStep_run]
    simp
  | yield =>
    rw [List.append_nil]
    refine List.filter_congr fun t ht => ?_
    cases hr : reapable σ.kernel.sched t <;> simp [mem_zombies, ht, hr]

/-- A step creates at most one thread, and none while it frees others. -/
theorem StepCase.made_cases (h : StepCase σ a act σ' a' made gone) :
    made = [] ∨ ∃ t, made = [t] ∧ gone = [] := by
  cases h with
  | rest | tick | wake | yield => exact .inl rfl
  | thread call cond k control =>
    cases control with
    | goto _ | ret _ | yieldTo _ => exact .inl rfl
    | spawned t =>
      cases t with
      | none => exact .inl rfl
      | some t => exact .inr ⟨t, rfl, rfl⟩

/-- What a step frees are zombies of the run queue with their stacks. -/
theorem StepCase.dead (h : StepCase σ a act σ' a' made gone) (hn : a.run.Nodup) :
    ∃ dead : List ThreadPtr, dead.Nodup ∧ (∀ t ∈ dead, t ∈ a.run ∧ reapable σ.kernel.sched t = true) ∧
      gone = dead.map fun t => ⟨t, (σ.kernel.sched.thread t).stackBase⟩ := by
  cases h with
  | rest | tick | wake | thread => exact ⟨[], List.nodup_nil, by simp, rfl⟩
  | yield =>
    refine ⟨_, List.nodup_reverse.mpr (hn.filter _), fun t ht => ?_, rfl⟩
    simpa using ht

theorem resched_stackBase {s : Scheduler} (next : Option ThreadPtr) (u : ThreadPtr) :
    ((s.resched next).thread u).stackBase = (s.thread u).stackBase := by
  have hstate (s : Scheduler) (t : ThreadPtr) (state : ThreadState) (wake : ℕ) :
      ((s.withState t state wake).thread u).stackBase = (s.thread u).stackBase := by
    rw [withState_thread]
    split
    next he => rw [he]
    next => rfl
  have hpreempt (prev : Option ThreadPtr) :
      ((s.preempt prev).thread u).stackBase = (s.thread u).stackBase := by
    unfold Scheduler.preempt
    split
    next => split; exacts [hstate _ _ _ _, rfl]
    next => rfl
  unfold Scheduler.resched
  split
  next => rfl
  next t =>
    split
    next => rfl
    next => exact (hstate _ _ _ _).trans (hpreempt _)

/-- No step moves the stack of a thread. -/
theorem StepCase.stack (h : StepCase σ a act σ' a' made gone) (hinv : Inv false σ a)
    (hadm : Admissible σ act) {u : ThreadPtr} (hu : u ∉ made) :
    (σ'.kernel.sched.thread u).stackBase = (σ.kernel.sched.thread u).stackBase := by
  cases h with
  | rest => rfl
  | tick =>
    simp only [ticked_thread]
    split <;> rfl
  | wake kind queue k hw =>
    exact (waitQueueWake_effect hinv.base.free hinv.base.wf.rep hw).stack u hu
  | thread call cond k control _ hstep => exact (hinv.thread_effect hadm hstep).stack u hu
  | yield _ pc s _ _ hy =>
    obtain ⟨r, flag, -, rfl, hskel⟩ := hy
    refine (resched_stackBase _ u).trans ?_
    have hthread := congrArg (fun s => (s.thread u).stackBase) hskel
    refine hthread.trans ?_
    simp only [reap_thread]
    split <;> rfl

/-- The points to which the first step of a call can lead. -/
def Call.Leads (call : Call) (p : Pc) : Prop :=
  match call with
  | .sleep _ => p = .entry ∨ ∃ tick, p = .sleepMark tick
  | .queueSleep queue => p = .entry ∨ ∃ q, queue = some q ∧ p = .queueSleepYield q
  | .wait queue _ => p = .entry ∨ ∃ q, queue = some q ∧ p = .waitCheck q
  | .waitTimeout queue _ ticks =>
      p = .entry ∨ ∃ q, queue = some q ∧ p = .timeoutDeadline q ticks
  | .exit => p = .exitYield
  | .yield | .wake _ _ | .create _ _ _ => p = .entry

/-- The control flow of a thread: where a step from `pc` can lead. -/
def Pc.Leads (pc : Pc) (call : Call) (cond : Bool) (p : Pc) : Prop :=
  match pc with
  | .entry => call.Leads p
  | .sleepMark _ => p = .sleepYield
  | .sleepYield => p = .sleepReturn
  | .sleepReturn => p = .entry
  | .queueSleepYield q => p = .queueSleepCheck q
  | .queueSleepCheck q => p = .entry ∨ p = .queueSleepYield q
  | .waitCheck q => p = if cond then .entry else .waitYield q
  | .waitYield q => p = .waitRemove q
  | .waitRemove q => p = .waitCheck q
  | .timeoutDeadline q _ => ∃ deadline, p = .timeoutNow q deadline
  | .timeoutNow q deadline => ∃ now, p = .timeoutCheck q deadline now
  | .timeoutCheck q deadline _ => p = .entry ∨ p = .timeoutYield q deadline
  | .timeoutYield q deadline => p = .timeoutRemove q deadline
  | .timeoutRemove q deadline => p = .timeoutNow q deadline
  | .exitYield => p = .exitYield

theorem beginCall_leads {k k' : Kernel} {call : Call} {cond : Bool} {control : Control}
    (hs : beginCall k cond call = .ok (k', control)) : call.Leads control.pc := by
  cases beginCall_cases hs with
  | stays hstays =>
    cases hstays with
    | yield => rfl
    | sleep => exact .inr ⟨_, rfl⟩
    | wait q | timeout q => exact .inr ⟨q, rfl, rfl⟩
    | sleepReturns | queueSleepReturns | waitReturns | timeoutReturns => exact .inl rfl
  | queueSleep q _ hlock =>
    obtain ⟨_, -, hpair⟩ := map_ok (withLock_body hlock)
    cases hpair
    exact .inr ⟨q, rfl, rfl⟩
  | wake | create | exit => rfl

theorem threadStep_leads {k k' : Kernel} {p : Pc} {call : Call} {cond : Bool}
    {control : Control} (hs : threadStep k p call cond = .ok (k', control)) :
    p.Leads call cond control.pc := by
  by_cases hentry : p = .entry
  · subst hentry
    exact beginCall_leads hs
  have hstep := (threadStep_cases hentry hs).1
  generalize k'.sched = s' at hstep
  cases hstep with
  | stays hq =>
    cases hq with
    | queueSleepAgain q => exact .inr rfl
    | queueSleepReturns q => exact .inl rfl
    | waitReturns q hcond => simp [Pc.Leads, hcond, Control.pc]
    | timeoutDeadline q ticks | timeoutNow q deadline => exact ⟨_, rfl⟩
    | _ => rfl
  | waitBlocks q hcond => simp [Pc.Leads, hcond, Control.pc]
  | sleepMark | waitRemove | timeoutRemove => rfl
  | timeoutCheck q deadline now hsection =>
    cases timeoutSection_cases hsection with
    | returns => exact .inl rfl
    | blocks => exact .inr rfl

/-- The final loop of `sched_thread_exit` is entered by a call of `exit` only. -/
theorem Pc.Leads.exitYield {p : Pc} {call : Call} {cond : Bool}
    (h : p.Leads call cond .exitYield) : p = .exitYield ∨ p = .entry ∧ call = .exit := by
  cases p with
  | entry =>
    refine .inr ⟨rfl, ?_⟩
    cases call <;> simp_all [Pc.Leads, Call.Leads]
  | waitCheck q => cases cond <;> simp [Pc.Leads] at h
  | exitYield => exact .inl rfl
  | sleepMark _ | sleepYield | sleepReturn | queueSleepYield _ | queueSleepCheck _ | waitYield _
  | waitRemove _ | timeoutDeadline _ _ | timeoutNow _ _ | timeoutCheck _ _ _ | timeoutYield _ _
  | timeoutRemove _ _ => simp [Pc.Leads] at h

theorem movePc_of_ne {pc : ThreadPtr → Pc} {current : Option ThreadPtr} {control : Control}
    {t : ThreadPtr} (ht : t ∉ control.threads) (hc : current ≠ some t) :
    movePc pc current control t = pc t := by
  have hold (c : ThreadPtr) (hcur : current = some c) :
      Function.update pc c control.pc t = pc t := by
    refine Function.update_of_ne ?_ _ _
    rintro rfl
    exact hc hcur
  unfold movePc
  split
  next u =>
    have hne : t ≠ u := by simpa [Control.threads] using ht
    rw [Function.update_of_ne hne]
    cases current with
    | none => rfl
    | some c => exact hold c rfl
  next =>
    cases current with
    | none => rfl
    | some c => exact hold c rfl

/-- Only the running thread moves, by a step of its own. -/
theorem StepCase.moves (h : StepCase σ a act σ' a' made gone) {t : ThreadPtr} (ht : t ∉ made) :
    (∃ call cond, act = .thread call cond ∧ σ.halted = false ∧
      σ.kernel.sched.currentThread = some t ∧ (σ.pc t).Leads call cond (σ'.pc t)) ∨
    σ'.pc t = σ.pc t ∧ ∀ call cond, act = .thread call cond → σ.halted = false →
      σ.kernel.sched.currentThread ≠ some t := by
  have hmoved {k : Kernel} {call : Call} {cond : Bool} {control : Control}
      (hh : σ.halted = false) (hstep : threadStep σ.kernel σ.point call cond = .ok (k, control))
      (htm : t ∉ control.threads) {pc : ThreadPtr → Pc}
      (hpc : pc = movePc σ.pc σ.kernel.sched.currentThread control) :
      (∃ call' cond', Action.thread call cond = .thread call' cond' ∧ σ.halted = false ∧
        σ.kernel.sched.currentThread = some t ∧ (σ.pc t).Leads call' cond' (pc t)) ∨
      pc t = σ.pc t ∧ ∀ call' cond', Action.thread call cond = .thread call' cond' →
        σ.halted = false → σ.kernel.sched.currentThread ≠ some t := by
    subst hpc
    by_cases hc : σ.kernel.sched.currentThread = some t
    · refine .inl ⟨call, cond, rfl, hh, hc, ?_⟩
      have hleads := threadStep_leads hstep
      simp only [System.point, hc] at hleads
      rwa [hc, movePc_self]
    · exact .inr ⟨movePc_of_ne htm hc, fun _ _ _ _ => hc⟩
  cases h with
  | rest _ _ _ _ hh =>
    refine .inr ⟨rfl, fun call cond he hn => ?_⟩
    rw [hh call cond he] at hn
    cases hn
  | tick | wake => exact .inr ⟨rfl, by simp⟩
  | thread call cond k control hh hstep => exact hmoved hh hstep ht rfl
  | yield _ pc s hyields hpoint =>
    rcases hpoint with ⟨rfl, rfl⟩ | ⟨call, cond, p, rfl, hstep, rfl⟩
    · exact .inr ⟨rfl, by simp⟩
    · exact hmoved hyields.1 hstep (by simp [Control.threads]) rfl

/-- A thread stands in its exit loop because it did so before or has just called `exit`. -/
theorem StepCase.exits (h : StepCase σ a act σ' a' made gone) {t : ThreadPtr} (ht : t ∉ made)
    (he : σ'.pc t = .exitYield) : σ.pc t = .exitYield ∨ t ∈ σ.exits act := by
  rcases h.moves ht with ⟨call, cond, rfl, hh, hc, hleads⟩ | ⟨hpc, -⟩
  · rw [he] at hleads
    rcases hleads.exitYield with hold | ⟨hentry, rfl⟩
    · exact .inl hold
    · right
      simp [System.exits, System.point, hh, hentry, hc]
  · rw [hpc] at he
    exact .inl he

/-- A created thread starts at its entry. -/
theorem StepCase.made_entry (h : StepCase σ a act σ' a' made gone) {t : ThreadPtr}
    (ht : t ∈ made) : σ'.pc t = .entry := by
  cases h with
  | rest | tick | wake | yield => simp at ht
  | thread call cond k control =>
    cases control with
    | goto _ | ret _ | yieldTo _ => simp [Control.threads] at ht
    | spawned u =>
      cases u with
      | none => simp [Control.threads] at ht
      | some u =>
        obtain rfl : t = u := by simpa [Control.threads] using ht
        exact Function.update_self _ _ _

theorem Fits.zombie_point {pc : Pc} {x : Thread} (h : Fits pc x) (hs : x.state = .zombie) :
    pc = .exitYield := by
  cases pc <;> simp_all [Fits, Active]

/-- Created threads were not on the run queue. -/
theorem Inv.spawned_notMem (hinv : Inv false σ' a')
    (hcase : StepCase σ a act σ' a' made gone) : ∀ t ∈ made, t ∉ a.run := by
  intro t ht hm
  rcases hcase.made_cases with rfl | ⟨u, rfl, rfl⟩
  · simp at ht
  · have hn := hinv.base.wf.rep.nodup
    rw [hcase.run] at hn
    exact (List.nodup_append.mp hn).2.2 t (by simpa using hm) t ht rfl

/-- A step that calls `sched_yield` does nothing else. -/
theorem StepCase.of_yields (h : StepCase σ a act σ' a' made gone) (hy : σ.Yields act) :
    a' = a.reap σ.kernel.sched ∧ made = [] ∧ gone = a.zombies σ.kernel.sched ∧
      Yielded σ.kernel.sched a σ'.pc σ'.kernel.sched := by
  cases h with
  | rest _ hn => exact absurd hy hn
  | tick | wake => exact hy.elim
  | thread call cond k control _ hstep hny =>
    obtain ⟨-, k', p, hstep'⟩ := hy
    exact absurd (Prod.mk.inj (Except.ok.inj (hstep.symm.trans hstep'))).2 (hny p)
  | yield _ _ _ _ _ hyielded => exact ⟨rfl, rfl, rfl, hyielded⟩

theorem StepCase.of_wake {kind : WakeKind} {queue : Option QueuePtr}
    (h : StepCase σ a (.wake kind queue) σ' a' made gone) : a' = a.wake kind queue := by
  cases h with
  | rest _ _ hn => exact absurd rfl (hn kind queue)
  | wake => rfl
  | yield _ _ _ hy => exact hy.elim

theorem resched_idleThread {s : Scheduler} (next : Option ThreadPtr) :
    (s.resched next).idleThread = s.idleThread := by
  have hpreempt (prev : Option ThreadPtr) : (s.preempt prev).idleThread = s.idleThread := by
    unfold Scheduler.preempt
    split
    next => split <;> rfl
    next => rfl
  unfold Scheduler.resched
  split
  next => rfl
  next t =>
    split
    next => rfl
    next => exact hpreempt _

/-- The idle thread is chosen once, and only `sched_yield` changes the current thread. -/
theorem StepCase.switching (h : StepCase σ a act σ' a' made gone) (hinv : Inv false σ a)
    (hadm : Admissible σ act) : σ'.kernel.sched.idleThread = σ.kernel.sched.idleThread ∧
      (¬ σ.Yields act → σ'.kernel.sched.currentThread = σ.kernel.sched.currentThread) := by
  cases h with
  | rest | tick => exact ⟨rfl, fun _ => rfl⟩
  | wake kind queue k hw =>
    obtain ⟨-, -, l, -, -, hskel, -⟩ := waitQueueWake_wf hinv.base.free hinv.base.wf hw
    have hfield {β : Type} (g : Scheduler → β) : g k.sched.skeleton =
      g (σ.kernel.sched.skeleton.wakeUp l) := congrArg g hskel
    exact ⟨hfield Scheduler.idleThread, fun _ => hfield Scheduler.currentThread⟩
  | thread call cond k control hh hstep =>
    have hadv := (hinv.stepOk hh hadm hstep).advance
    exact ⟨hadv.idle, fun _ => hadv.current⟩
  | yield _ pc s hyields _ hy =>
    obtain ⟨r, flag, -, rfl, hskel⟩ := hy
    have hidle := congrArg Scheduler.idleThread hskel
    exact ⟨(resched_idleThread _).trans hidle, fun hn => absurd hyields hn⟩

/-- What `sched_yield` chooses from: the reaped run queue, with the old states. -/
theorem Yielded.pick {s s' : Scheduler} {pc : ThreadPtr → Pc} (h : Yielded s a pc s') :
    ∃ r : Scheduler, r.currentThread = s.currentThread ∧ r.idleThread = s.idleThread ∧
      (∀ t ∈ (a.reap s).run, (r.thread t).state = (s.thread t).state) ∧
      s' = r.resched (Sched.pick r (a.reap s).run) := by
  obtain ⟨r, flag, -, hs', hskel⟩ := h
  have hfield {β : Type} (g : Scheduler → β) : g r.skeleton = g (({ s with needResched := flag } :
    Scheduler).skeleton.reap (a.run.filter (reapable s))) := congrArg g hskel
  refine ⟨r, hfield Scheduler.currentThread, hfield Scheduler.idleThread, fun t ht => ?_, hs'⟩
  have hstay : t ∉ a.run.filter (reapable s) := by
    have hr := (List.mem_filter.mp ht).2
    simp_all
  have hstate := reap_state hskel hstay
  exact hstate

end

end Tianole.Sched
