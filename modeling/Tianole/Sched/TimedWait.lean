import Tianole.Sched.Blocking

/-! Wakeups and timed waiters. The timer readies a timed waiter without unlinking it, so that
a waker can find a thread which no longer waits. -/
namespace Tianole.Sched
open Runs Links

/-- A timed waiter whose wake tick the timer has already cleared. -/
def TimedOut (σ : System) (t : ThreadPtr) : Prop :=
  match σ.pc t with
  | .timeoutYield _ _ | .timeoutRemove _ _ => (σ.kernel.sched.thread t).wakeTick = 0
  | _ => False

/-- The threads that the wakeup of a step takes off its queue. -/
def System.Removes (σ : System) (act : Action) (t : ThreadPtr) : Prop :=
  ∃ kind q l, σ.Wakes kind q act ∧
    Path σ.kernel.sched.waitLinks (σ.kernel.sched.queue q).head l none ∧ t ∈ kind.removed l

section
variable {σ : System} {a : Shape} {t : ThreadPtr} {q : QueuePtr} {act : Action} {strict : Bool}

/-- A linked thread is blocked unless the timer has been there first. -/
theorem Inv.waitable_iff (h : Inv strict σ a) (ht : t ∈ a.wait q) :
    Waitable σ.kernel.sched t ↔ ¬ TimedOut σ t := by
  have hm := h.base.wf.rep.waitSub q t ht
  have hq := (h.base.wf.rep.owner q t hm).mp ht
  have hok := h.base.wf.threads t hm
  have hfit := hok.fits
  have hactive (ha : Active (σ.kernel.sched.thread t)) : ¬ Waitable σ.kernel.sched t ∧
      (σ.kernel.sched.thread t).wakeTick = 0 := by
    refine ⟨?_, not_not.mp fun hw => ?_⟩
    · rcases ha with ha | ha <;> simp [Waitable, ha]
    · rcases ha with ha | ha <;> rw [hok.wake hw] at ha <;> cases ha
  have htimed (d : ℕ) (hf : (σ.kernel.sched.thread t).waitQueue = none ∧
      Active (σ.kernel.sched.thread t) ∨ (σ.kernel.sched.thread t).waitQueue = some q ∧
      (Active (σ.kernel.sched.thread t) ∨ (σ.kernel.sched.thread t).state = .sleeping ∧
        (σ.kernel.sched.thread t).wakeTick = d ∧ 0 < d)) :
      Waitable σ.kernel.sched t ↔ ¬ (σ.kernel.sched.thread t).wakeTick = 0 := by
    rcases hf with ⟨hn, -⟩ | ⟨-, ha | ⟨hs, hd, hpos⟩⟩
    · rw [hn] at hq
      cases hq
    · simp [hactive ha]
    · exact iff_of_true (.inr hs) (by omega)
  cases hpc : σ.pc t with
  | timeoutYield q' d | timeoutRemove q' d =>
    rw [hpc] at hfit
    have hqq : q' = q := by
      rcases hfit with ⟨hn, -⟩ | ⟨hs, -⟩
      · rw [hn] at hq
        cases hq
      · exact Option.some.inj (hs.symm.trans hq)
    subst hqq
    simpa only [TimedOut, hpc] using htimed d hfit
  | queueSleepYield q' | queueSleepCheck q' | waitYield q' | waitRemove q' =>
    rw [hpc] at hfit
    rcases hfit with ⟨hn, -⟩ | ⟨-, hw⟩
    · rw [hn] at hq
      cases hq
    · simp [TimedOut, hpc, Waitable, hw]
  | entry | sleepMark _ | sleepYield | sleepReturn | waitCheck _ | timeoutDeadline _ _
  | timeoutNow _ _ | timeoutCheck _ _ _ | exitYield =>
    rw [hpc] at hfit
    have hn := hfit.1
    rw [hq] at hn
    cases hn

theorem waitQueueWake_panics {k : Kernel} {pc : ThreadPtr → Pc} {kind : WakeKind}
    (h : Base k pc a) (ht : ∃ t ∈ kind.removed (a.wait q), ¬ Waitable k.sched t) :
    waitQueueWake kind k (some q) = .error (.panic .wakeupNonWaiting) := by
  simp only [waitQueueWake, withLock_eq (h.free.locked _), (wakeLocked_eq h.wf.rep kind q).2 ht,
    Except.map, bind, Except.bind]

theorem Inv.removes_iff (h : Inv strict σ a) : σ.Removes act t ↔
    ∃ kind q, σ.Wakes kind q act ∧ t ∈ kind.removed (a.wait q) := by
  constructor
  · rintro ⟨kind, q, l, hw, hl, ht⟩
    rw [path_unique hl (h.base.wf.rep.wait q)] at ht
    exact ⟨kind, q, hw, ht⟩
  · rintro ⟨kind, q, hw, ht⟩
    exact ⟨kind, q, a.wait q, hw, h.base.wf.rep.wait q, ht⟩

/-- In every reachable state a wakeup panics exactly when it removes a timed waiter that the
timer has already woken; every other thread that it removes is waiting or sleeping. -/
theorem wakeup_panics_iff (h : Reachable (fun _ _ => True) σ) (hadm : Admissible σ act) :
    (σ.step act = .error (.panic .wakeupNonWaiting) ↔ ∃ t, σ.Removes act t ∧ TimedOut σ t) ∧
      ∀ t, σ.Removes act t → (Waitable σ.kernel.sched t ↔ ¬ TimedOut σ t) := by
  obtain ⟨a, hinv⟩ := reachable_inv false h (by simp)
  have hremoved {t : ThreadPtr} (ht : σ.Removes act t) :
      Waitable σ.kernel.sched t ↔ ¬ TimedOut σ t := by
    obtain ⟨kind, q, -, hm⟩ := hinv.removes_iff.mp ht
    exact hinv.waitable_iff (WakeKind.mem_of_removed hm)
  refine ⟨⟨fun hs => ?_, ?_⟩, fun t ht => hremoved ht⟩
  · rcases hinv.step_error hadm hs with ⟨-, he⟩ | he | ⟨-, kind, q, hw, t, ht, hn⟩
    · cases he
    · cases he
    · have hr : σ.Removes act t := hinv.removes_iff.mpr ⟨kind, q, hw, ht⟩
      exact ⟨t, hr, not_not.mp fun hto => hn ((hremoved hr).mpr hto)⟩
  · rintro ⟨t, hr, hto⟩
    have hnw : ¬ Waitable σ.kernel.sched t := fun hw => (hremoved hr).mp hw hto
    obtain ⟨kind, q, hw, ht⟩ := hinv.removes_iff.mp hr
    have hpanic := waitQueueWake_panics hinv.base ⟨t, ht, hnw⟩
    cases act with
    | tick => exact hw.elim
    | irqExit => exact hw.elim
    | wake kind' queue =>
      obtain ⟨rfl, rfl⟩ := hw
      simp only [System.step, hpanic, Except.map]
    | thread call cond =>
      obtain ⟨hh, hpt, rfl⟩ := hw
      simp only [System.step, hh, Bool.false_eq_true, ↓reduceIte, hpt, threadStep, beginCall,
        hpanic, bind, Except.bind]

end

/-- A timed waiter on queue 0, before its timeout and behind it. -/
theorem wakeup_panics_iff_waiter : ∃ σ τ : System,
    Reachable (fun _ _ => True) σ ∧ σ.Removes (.wake .one (some 0)) 2 ∧ ¬ TimedOut σ 2 ∧
    Waitable σ.kernel.sched 2 ∧
    σ.step (.wake .one (some 0)) ≠ .error (.panic .wakeupNonWaiting) ∧
    Reachable (fun _ _ => True) τ ∧ τ.Removes (.wake .one (some 0)) 2 ∧ TimedOut τ 2 ∧
    τ.step (.wake .one (some 0)) = .error (.panic .wakeupNonWaiting) := by
  let watch (σ : System) := (σ.pc 2, (σ.kernel.sched.thread 2).wakeTick,
    decide (Path σ.kernel.sched.waitLinks (σ.kernel.sched.queue 0).head [2] none))
  let wait : List Action := [.thread .yield false, .thread (.waitTimeout (some 0) true 1) false,
    .thread .yield false, .thread .yield false, .thread .yield false, .thread .yield false]
  have hboot : Reachable (fun _ _ => True) (.boot [1, 2, 3] 1) :=
    boot_reachable (by decide) (by decide)
  have hremoves {σ : System}
      (h : Path σ.kernel.sched.waitLinks (σ.kernel.sched.queue 0).head [2] none) (t : ThreadPtr) :
      σ.Removes (.wake .one (some 0)) t ↔ t = 2 := by
    constructor
    · rintro ⟨kind, q, l, ⟨rfl, hq⟩, hl, ht⟩
      obtain rfl := Option.some.inj hq
      rw [path_unique hl h] at ht
      exact List.mem_singleton.mp ht
    · rintro rfl
      exact ⟨.one, 0, [2], ⟨rfl, rfl⟩, h, by decide⟩
  have hadm (σ : System) : Admissible σ (.wake .one (some 0)) := trivial
  obtain ⟨σ, hσ, hwσ⟩ := hboot.exec_map (f := watch) wait (by simp [wait, Admissible, Fresh])
    (b := (.timeoutRemove 0 1, 1, true)) rfl
  obtain ⟨τ, hτ, hwτ⟩ := hboot.exec_map (f := watch) (wait ++ [.tick])
    (by simp [wait, Admissible, Fresh]) (b := (.timeoutRemove 0 1, 0, true)) rfl
  simp only [watch, Prod.mk.injEq, decide_eq_true_eq] at hwσ hwτ
  obtain ⟨hpσ, htσ, hlσ⟩ := hwσ
  obtain ⟨hpτ, htτ, hlτ⟩ := hwτ
  have hlive : ¬ TimedOut σ 2 := by simp [TimedOut, hpσ, htσ]
  have hout : TimedOut τ 2 := by simp [TimedOut, hpτ, htτ]
  have hsafe := wakeup_panics_iff hσ (hadm σ)
  refine ⟨σ, τ, hσ, (hremoves hlσ 2).mpr rfl, hlive, (hsafe.2 2 ((hremoves hlσ 2).mpr rfl)).mpr hlive,
    fun hs => ?_, hτ, (hremoves hlτ 2).mpr rfl, hout,
    (wakeup_panics_iff hτ (hadm τ)).1.mpr ⟨2, (hremoves hlτ 2).mpr rfl, hout⟩⟩
  obtain ⟨t, ht, hto⟩ := hsafe.1.mp hs
  obtain rfl := (hremoves hlσ t).mp ht
  exact hlive hto

/-- A timed waiter expires, and before it runs again another thread wakes the queue. -/
theorem expired_waiter_panics : ∃ σ act, Reachable (fun _ _ => True) σ ∧ Admissible σ act ∧
    σ.step act = .error (.panic .wakeupNonWaiting) := by
  have hboot : Reachable (fun _ _ => True) (.boot [1, 2, 3, 4] 1) :=
    boot_reachable (by decide) (by decide)
  obtain ⟨σ, act, hr, hok, hs⟩ := Reach.exec_error hboot
    [.thread .yield false, .thread (.waitTimeout (some 0) true 1) false, .thread .yield false,
      .thread .yield false, .thread .yield false, .thread .yield false, .tick, .irqExit,
      .thread (.wake .one (some 0)) false] (by simp [Admissible, Fresh])
    (e := .panic .wakeupNonWaiting) rfl
  exact ⟨σ, act, hr, hok.1, hs⟩

end Tianole.Sched
