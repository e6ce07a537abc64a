import Tianole.Sched.Effect

/-! What a step leaves alone. The running context writes to its own thread, to threads that it
wakes from a wait queue or to a new one; so a sleeper on no queue is a bystander of every step
but the ticks of the timer. -/
namespace Tianole.Sched
open Runs

/-! ### What a step writes -/

/-- What a step of the running context does to the thread objects, links apart. -/
inductive StepWrites (s s' : Scheduler) : Prop
  | nothing : s' = s → StepWrites s s'
  | own (c : ThreadPtr) (f : Thread → Thread) : s.currentThread = some c →
      s'.skeleton = s.skeleton.modifyThread c f → StepWrites s s'
  | wakes (l : List ThreadPtr) : s'.skeleton = s.skeleton.wakeUp l →
      (∀ t ∈ l, ∃ q, (s.thread t).waitQueue = some q) → StepWrites s s'
  | creates (t : ThreadPtr) (entry stack : ℕ) : s.allocated t = false →
      s'.skeleton = (initThread s t entry stack).skeleton → StepWrites s s'

section
variable {s s' : Scheduler} {a : Shape} {c : ThreadPtr} {q : QueuePtr}

theorem setState_writes {state : ThreadState} {wake : ℕ → ℕ} (hc : s.currentThread = some c)
    (hs : threadSetWith s s.currentThread state wake = .ok s') : StepWrites s s' := by
  rw [hc] at hs
  obtain ⟨-, rfl⟩ := threadSetWith_ok hs
  exact .own c _ hc (skeleton_withState_modify _ _)

theorem blockWaiting_writes (h : Represents s a) (hc : s.currentThread = some c)
    (hm : c ∈ a.run) (ho : (s.thread c).waitQueue = none) (hs : blockWaiting s q = .ok s') :
    StepWrites s s' := by
  exact .own c _ hc (blockWaiting_spec h hc hm ho hs).2

theorem removeCurrent_writes {found : Bool} (h : Represents s a) (hc : s.currentThread = some c)
    (hm : c ∈ a.run) (hs : waitQueueRemoveLocked s q s.currentThread = .ok (s', found)) :
    StepWrites s s' := by
  rw [hc] at hs
  obtain ⟨s₁, b, hok, -, hskel⟩ := waitQueueRemoveLocked_eq (q := q) h hm
  obtain ⟨rfl, -⟩ := Prod.mk.inj (Except.ok.inj (hok.symm.trans hs))
  split at hskel
  next => exact .own c _ hc hskel
  next =>
    refine .own c (fun x => x) hc (hskel.trans ?_)
    simp only [Scheduler.modifyThread, Function.update_eq_self]

theorem timeoutSection_writes {deadline now : ℕ} {cond : Bool} {control : Control}
    (h : Represents s a) (hc : s.currentThread = some c) (hm : c ∈ a.run)
    (ho : (s.thread c).waitQueue = none)
    (hs : timeoutSection s q deadline now cond = .ok (s', control)) : StepWrites s s' := by
  cases timeoutSection_cases hs with
  | returns v _ hclear => exact .own c _ hc (clearWakeTick_spec h hc hclear).2
  | blocks _ _ hset hen => exact .own c _ hc (sleepEnqueue_spec h hc hm ho hset hen).2

variable {k k' : Kernel} {pc : ThreadPtr → Pc} {control : Control} {call : Call} {cond : Bool}

theorem waitQueueWake_writes {kind : WakeKind} {queue : Option QueuePtr} (hf : k.locks.Free)
    (h : Wf k.sched pc a) (hs : waitQueueWake kind k queue = .ok k') :
    StepWrites k.sched k'.sched := by
  obtain ⟨-, -, l, -, -, hskel, hl⟩ := waitQueueWake_wf hf h hs
  exact .wakes l hskel fun t ht => (hl t ht).2

theorem kernelThreadCreate_writes {entry stack : ℕ} {object made : Option ThreadPtr}
    (hf : k.locks.Free) (hfresh : Fresh k.sched (.create entry object stack))
    (hs : kernelThreadCreate k entry object stack = .ok (k', made)) :
    StepWrites k.sched k'.sched := by
  rcases kernelThreadCreate_cases hs with ⟨rfl, -⟩ | ⟨t, rfl, -, hlock⟩
  · exact .nothing rfl
  · obtain ⟨hbody, -⟩ := withLock_ok hf hlock
    obtain ⟨hsched, -⟩ := Prod.mk.inj (Except.ok.inj hbody)
    refine .creates t entry stack hfresh ?_
    rw [← hsched]
    exact enqueueInit_skeleton entry stack

theorem beginCall_writes (hf : k.locks.Free) (h : Wf k.sched pc a)
    (hm : ∀ c, k.sched.currentThread = some c → (k.sched.thread c).waitQueue = none)
    (hfresh : Fresh k.sched call) (hs : beginCall k cond call = .ok (k', control)) :
    StepWrites k.sched k'.sched := by
  cases beginCall_cases hs with
  | stays => exact .nothing rfl
  | queueSleep q hsome hlock =>
    obtain ⟨c, hc⟩ := Option.ne_none_iff_exists'.mp hsome
    obtain ⟨hbody, -⟩ := withLock_ok hf hlock
    obtain ⟨s₁, hb, hpair⟩ := map_ok hbody
    obtain ⟨rfl, -⟩ := Prod.mk.inj hpair
    exact blockWaiting_writes h.rep hc (h.current c hc) (hm c hc) hb
  | wake kind queue hw => exact waitQueueWake_writes hf h hw
  | create entry object stack made hw => exact kernelThreadCreate_writes hf hfresh hw
  | exit s hw =>
    obtain ⟨c, hc, hset⟩ := schedThreadExit_ok hw
    exact setState_writes hc hset

theorem threadStep_writes (hf : k.locks.Free) (h : Wf k.sched pc a)
    (hc : k.sched.currentThread = some c) (hfresh : Fresh k.sched call)
    (hs : threadStep k (pc c) call cond = .ok (k', control)) : StepWrites k.sched k'.sched := by
  have hm := h.current c hc
  have hfit := (h.threads c hm).fits
  by_cases hentry : pc c = .entry
  · rw [hentry] at hs hfit
    refine beginCall_writes hf h (fun c' hc' => ?_) hfresh hs
    obtain rfl := Option.some.inj (hc.symm.trans hc')
    exact hfit.1
  have hstep := (threadStep_cases hentry hs).1
  generalize pc c = p at hstep hfit
  generalize k'.sched = s' at hstep
  cases hstep with
  | stays => exact .nothing rfl
  | sleepMark wakeTick hset => exact setState_writes hc hset
  | waitBlocks q _ hblock => exact blockWaiting_writes h.rep hc hm hfit.1 hblock
  | waitRemove q hremove | timeoutRemove q _ hremove => exact removeCurrent_writes h.rep hc hm hremove
  | timeoutCheck q deadline now hsection => exact timeoutSection_writes h.rep hc hm hfit.1 hsection

end

/-! ### Bystanders -/

/-- What a thread is doing, links apart. -/
def Scheduler.status (s : Scheduler) (t : ThreadPtr) : ThreadState × ℕ × Option QueuePtr :=
  ((s.thread t).state, (s.thread t).wakeTick, (s.thread t).waitQueue)

section
variable {s s' : Scheduler} {a a' : Shape} {u : ThreadPtr} {σ σ' : System} {act : Action}
  {strict : Bool} {made : List ThreadPtr} {gone : List Release}

theorem status_of_skeleton (hskel : s'.skeleton.thread u = s.skeleton.thread u) :
    s'.status u = s.status u := by
  have hfields := congrArg (fun x : Thread => (x.state, x.wakeTick, x.waitQueue)) hskel
  exact hfields

/-- A thread that is neither running nor on a queue is left alone. -/
theorem StepWrites.status (h : StepWrites s s') (hc : s.currentThread ≠ some u)
    (hq : (s.thread u).waitQueue = none) (hu : s.allocated u = true) :
    s'.status u = s.status u := by
  cases h with
  | nothing he => rw [he]
  | own c f hcur hskel =>
    have hne : u ≠ c := by
      rintro rfl
      exact hc hcur
    refine status_of_skeleton ?_
    rw [hskel, Scheduler.modifyThread_of_ne _ _ hne]
  | wakes l hskel hl =>
    have hnot : u ∉ l := by
      intro hmem
      obtain ⟨q, hlinked⟩ := hl u hmem
      rw [hq] at hlinked
      cases hlinked
    refine status_of_skeleton ?_
    rw [hskel, wakeUp_thread, if_neg hnot]
  | creates t entry stack hfresh hskel =>
    have hne : u ≠ t := by
      rintro rfl
      rw [hfresh] at hu
      cases hu
    have hold : (initThread s t entry stack).thread u = s.thread u := Function.update_of_ne hne _ _
    refine status_of_skeleton ?_
    rw [hskel, Scheduler.skeleton, Scheduler.skeleton]
    simp only [hold]

theorem Inv.thread_writes (h : Inv strict σ a) {k : Kernel} {call : Call} {cond : Bool}
    {control : Control} (hadm : Admissible σ (.thread call cond))
    (hs : threadStep σ.kernel σ.point call cond = .ok (k, control)) :
    StepWrites σ.kernel.sched k.sched := by
  unfold System.point at hs
  cases hc : σ.kernel.sched.currentThread with
  | none =>
    rw [hc] at hs
    exact beginCall_writes h.base.free h.base.wf (by simp [hc]) hadm hs
  | some c =>
    rw [hc] at hs
    exact threadStep_writes h.base.free h.base.wf hc hadm hs

theorem switchTo_status {t : ThreadPtr} (hut : u ≠ t) (hr : (s.thread u).state ≠ .running) :
    (s.switchTo t).status u = s.status u := by
  have hpreempt : (s.preempt s.currentThread).thread u = s.thread u := by
    by_cases hc : s.currentThread = some u
    · rw [hc, Scheduler.preempt, if_neg hr]
    · exact preempt_thread hc
  have hthread : (s.switchTo t).thread u = s.thread u := by
    change ((s.preempt s.currentThread).withState t .running _).thread u = _
    rw [withState_thread, if_neg hut, hpreempt]
  rw [Scheduler.status, hthread]
  rfl

/-- `sched_yield` neither changes nor picks a sleeping thread. -/
theorem Yielded.sleeper {pc : ThreadPtr → Pc} (h : Yielded s a pc s')
    (hs : (s.thread u).state = .sleeping) :
    s'.status u = s.status u ∧ (s'.currentThread = some u → s.currentThread = some u) := by
  obtain ⟨r, flag, hwf, rfl, hskel⟩ := h
  have hfield {β : Type} (g : Scheduler → β) : g r.skeleton = g (({ s with needResched := flag } :
    Scheduler).skeleton.reap (a.run.filter (reapable s))) := congrArg g hskel
  have hstay : u ∉ a.run.filter (reapable s) := by
    simp [reapable, threadIsZombie, hs]
  have hstatus : r.status u = s.status u := by
    refine status_of_skeleton ?_
    rw [hskel, reap_thread, if_neg hstay]
    rfl
  have hstate : (r.thread u).state = .sleeping := (congrArg Prod.fst hstatus).trans hs
  have hcur : r.currentThread = s.currentThread := hfield Scheduler.currentThread
  cases hp : Sched.pick r (a.reap s).run with
  | none => exact ⟨hstatus, fun hc => hcur.symm.trans hc⟩
  | some t =>
    obtain ⟨hready, -⟩ := pick_ready hwf.rep hwf.current hwf.idle_mem hp
    have hut : u ≠ t := by
      rintro rfl
      rw [hstate] at hready
      cases hready
    unfold Scheduler.resched
    simp only
    split
    next => exact ⟨hstatus, fun hc => hcur.symm.trans hc⟩
    next =>
      refine ⟨(switchTo_status hut (by simp [hstate])).trans hstatus, fun hc => ?_⟩
      exact absurd (Option.some.inj hc).symm hut

/-- A sleeping thread that still has the processor is about to yield. -/
theorem Inv.sleeping_yields (h : Inv false σ a) (hc : σ.kernel.sched.currentThread = some u)
    (hs : (σ.kernel.sched.thread u).state = .sleeping) : (σ.pc u).yields := by
  rcases h.awake u hc with hy | hr | ⟨-, hr⟩
  · exact hy
  · rw [hs] at hr
    cases hr
  · rw [hs] at hr
    cases hr

/-- Steps other than timer ticks leave a sleeper on no queue as it is. It does not get the
processor; it may still have it if it has not yielded yet. -/
theorem StepCase.sleeper (h : StepCase σ a act σ' a' made gone) (hinv : Inv false σ a)
    (hadm : Admissible σ act) (ht : act ≠ .tick) (hu : u ∈ a.run)
    (hs : (σ.kernel.sched.thread u).state = .sleeping)
    (hq : (σ.kernel.sched.thread u).waitQueue = none) :
    σ'.kernel.sched.status u = σ.kernel.sched.status u ∧
      (σ'.kernel.sched.currentThread = some u → σ.kernel.sched.currentThread = some u) := by
  have halloc := (hinv.base.wf.rep.allocated u).mpr hu
  have hcurrent (hy : ¬ σ.Yields act) :=
    (h.switching hinv hadm).2 hy
  cases h with
  | rest => exact ⟨rfl, id⟩
  | tick => exact absurd rfl ht
  | wake kind queue k hw =>
    obtain ⟨-, -, l, -, -, hskel, hl⟩ := waitQueueWake_wf hinv.base.free hinv.base.wf hw
    have hnot : u ∉ l := by
      intro hmem
      obtain ⟨-, q, hlinked⟩ := hl u hmem
      rw [hq] at hlinked
      cases hlinked
    refine ⟨status_of_skeleton ?_, fun hc => (hcurrent id).symm.trans hc⟩
    rw [hskel, wakeUp_thread, if_neg hnot]
  | thread call cond k control hh hstep hny =>
    have hny' : ¬ σ.Yields (.thread call cond) := by
      rintro ⟨-, k', p, hstep'⟩
      exact hny p (Prod.mk.inj (Except.ok.inj (hstep.symm.trans hstep'))).2
    have hne : σ.kernel.sched.currentThread ≠ some u := by
      intro hc
      obtain ⟨r, hr⟩ := threadStep_yields σ.kernel call cond (hinv.sleeping_yields hc hs)
      have hpoint : σ.point = σ.pc u := by simp [System.point, hc]
      rw [hpoint, hr] at hstep
      exact hny r (Prod.mk.inj (Except.ok.inj hstep)).2.symm
    refine ⟨(hinv.thread_writes hadm hstep).status hne hq halloc, fun hc => ?_⟩
    exact (hcurrent hny').symm.trans hc
  | yield _ pc s _ _ hy => exact hy.sleeper hs

/-- Threads that have not exited stay on the run queue. -/
theorem StepCase.stays (h : StepCase σ a act σ' a' made gone) (hinv : Inv false σ a)
    (hu : u ∈ a.run) (hz : (σ.kernel.sched.thread u).state ≠ .zombie) : u ∈ a'.run := by
  obtain ⟨dead, -, hdead, rfl⟩ := h.dead hinv.base.wf.rep.nodup
  rw [h.run]
  refine List.mem_append_left _ (List.mem_filter.mpr ⟨hu, decide_eq_true fun hmem => ?_⟩)
  obtain ⟨r, hr, rfl⟩ := List.mem_map.mp hmem
  obtain ⟨t, ht, rfl⟩ := List.mem_map.mp hr
  exact hz (reapable_iff.mp (hdead t ht).2).1

end

end Tianole.Sched
