import Tianole.Sched.History

/-! What the reaper may free, and that a freed thread is never met again. -/
namespace Tianole.Sched
open Runs Links

/-- The threads that the scheduler can reach: through the run queue and its tail pointer, as
the current or the idle thread, and through a wait queue and its tail pointer. -/
inductive Pointed (s : Scheduler) (t : ThreadPtr) : Prop
  | run : OnRunQueue s t → Pointed s t
  | runTail : s.runQueueTail = some t → Pointed s t
  | current : s.currentThread = some t → Pointed s t
  | idle : s.idleThread = some t → Pointed s t
  | wait (q : QueuePtr) (l : List ThreadPtr) :
      Path s.waitLinks (s.queue q).head l none → t ∈ l → Pointed s t
  | waitTail (q : QueuePtr) : (s.queue q).tail = some t → Pointed s t

/-- A release as the reaper may make it: a live thread that has called `exit` and is not the
current one, with the stack it was created with. -/
structure Releasing (τ : Traced) (r : Release) : Prop where
  life : τ.hist.release r = τ.hist.life r.object
  alive : r.object ∈ τ.hist.alive
  unfreed : τ.hist.release r ∉ τ.hist.freed
  exited : (τ.hist.release r).number ∈ τ.hist.exited
  notCurrent : τ.sys.kernel.sched.currentThread ≠ some r.object

/-- The panics of `release_thread`. -/
def releasePanics : List Panic :=
  [.invalidReleaseTarget, .reapingBeforeDead, .reapingOnWaitQueue, .reapingWithDeadline,
    .reapingWithoutStack]

/-- A thread that `sched_yield` has to release. -/
def Zombie (s : Scheduler) (t : ThreadPtr) : Prop :=
  (s.thread t).state = .zombie ∧ s.currentThread ≠ some t

instance (s : Scheduler) (t : ThreadPtr) : Decidable (Zombie s t) :=
  inferInstanceAs (Decidable (_ ∧ _))

/-- What a step from `τ` to `τ'` may free. A yield frees every zombie and nothing else, and
the others keep their order on the run queue. -/
structure Reaping (τ τ' : Traced) (act : Action) : Prop where
  releasing : ∀ r ∈ τ.sys.released act, Releasing τ r
  recorded : τ'.hist.freed = τ.hist.freed ++ (τ.sys.released act).map τ.hist.release
  yields : τ.sys.Yields act →
    (∀ t, t ∈ (τ.sys.released act).map Release.object ↔
      t ∈ τ.hist.alive ∧ Zombie τ.sys.kernel.sched t) ∧
    Path τ'.sys.kernel.sched.links τ'.sys.kernel.sched.runQueueHead
      (τ.hist.alive.filter fun t => decide (¬ Zombie τ.sys.kernel.sched t)) none

section
variable {τ τ' : Traced} {a : Shape} {act : Action} {t : ThreadPtr}

theorem reapable_iff_zombie {s : Scheduler} : reapable s t = true ↔ Zombie s t := by
  rw [reapable_iff, Zombie]
  exact and_congr_right fun _ => not_congr eq_comm

theorem Lockstep.pointed_mem (hl : Lockstep τ a) (hp : Pointed τ.sys.kernel.sched t) :
    t ∈ a.run := by
  have hrep := hl.inv.base.wf.rep
  cases hp with
  | run h => exact hrep.onRunQueue.mp h
  | runTail h =>
    rw [hrep.runTail] at h
    exact List.mem_of_getLast? h
  | current h => exact hl.inv.base.wf.current t h
  | idle h => exact hl.inv.base.wf.idle_mem t h
  | wait q l hl' ht =>
    rw [path_unique hl' (hrep.wait q)] at ht
    exact hrep.waitSub q t ht
  | waitTail q h =>
    rw [hrep.waitTail q] at h
    exact hrep.waitSub q t (List.mem_of_getLast? h)

/-- What the step frees, thread by thread. -/
theorem Lockstep.releasing (hl : Lockstep τ a) {dead : List ThreadPtr}
    (hd : ∀ t ∈ dead, t ∈ a.run ∧ reapable τ.sys.kernel.sched t = true) (ht : t ∈ dead) :
    Releasing τ ⟨t, (τ.sys.kernel.sched.thread t).stackBase⟩ := by
  obtain ⟨htm, hr⟩ := hd t ht
  have hz := reapable_iff_zombie.mp hr
  have hlife : τ.hist.release ⟨t, (τ.sys.kernel.sched.thread t).stackBase⟩ = τ.hist.life t := by
    simpa using hl.release_eq [t] (by simpa using htm)
  refine ⟨hlife, hl.alive ▸ htm, ?_, ?_, hz.2⟩
  · rw [hlife]
    exact (hl.life_mem htm).2
  · rw [hlife]
    exact hl.exits t htm ((hl.inv.base.wf.threads t htm).fits.zombie_point hz.1)

theorem Lockstep.reaping (hl : Lockstep τ a) (hadm : Admissible τ.sys act)
    (hs : τ.step act = .ok τ') : Reaping τ τ' act := by
  obtain ⟨a', hl', hcase⟩ := hl.step hadm hs
  obtain ⟨σ', -, rfl⟩ := map_ok hs
  obtain ⟨dead, -, hdead, hgone⟩ := hcase.dead hl.inv.base.wf.rep.nodup
  refine ⟨fun r hr => ?_, rfl, fun hy => ?_⟩
  · rw [hgone] at hr
    obtain ⟨t, ht, rfl⟩ := List.mem_map.mp hr
    exact hl.releasing hdead ht
  · obtain ⟨rfl, -, hzombies, -⟩ := hcase.of_yields hy
    refine ⟨fun t => ?_, ?_⟩
    · rw [hzombies, mem_zombies, hl.alive, reapable_iff_zombie]
    · have hrun := hl'.inv.base.wf.rep.run
      have hfilter : (a.reap τ.sys.kernel.sched).run =
          τ.hist.alive.filter fun t => decide (¬ Zombie τ.sys.kernel.sched t) := by
        rw [hl.alive]
        refine List.filter_congr fun t _ => ?_
        simp only [← reapable_iff_zombie, decide_not, Bool.decide_eq_true]
      rwa [hfilter] at hrun

/-- In every run, every thread is released at most once, after it has called `exit` and while
it is not running; a released thread cannot be reached any more; and the checks of
`release_thread` do not fail. -/
theorem thread_lifecycle (h : Traced.Reachable τ) :
    (τ.hist.freed.map Life.number).Nodup ∧
      (∀ l ∈ τ.hist.freed, l ∈ τ.hist.made ∧ l.number ∈ τ.hist.exited ∧
        (Pointed τ.sys.kernel.sched l.object → (τ.hist.life l.object).number ≠ l.number)) ∧
      ∀ act, Admissible τ.sys act →
        (∀ τ', τ.step act = .ok τ' → Reaping τ τ' act) ∧ τ.step act ≠ .error .fault ∧
          ∀ p ∈ releasePanics, τ.step act ≠ .error (.panic p) := by
  obtain ⟨a, hl⟩ := h.lockstep
  refine ⟨hl.freedOnce, fun l hf => ⟨hl.freedMade l hf, hl.freedExited l hf, fun hp he => ?_⟩,
    fun act hadm => ⟨fun τ' hs => hl.reaping hadm hs, fun hs => ?_, fun p hp hs => ?_⟩⟩
  · refine hl.number_notMem (hl.pointed_mem hp) ?_
    rw [he]
    exact List.mem_map_of_mem hf
  · rcases hl.step_error hadm hs with he | he | he <;> cases he
  · rcases hl.step_error hadm hs with he | he | he <;> cases he <;> simp [releasePanics] at hp

theorem thread_lifecycle_exited : ∃ τ : Traced, (τ.hist.freed.map Life.number).Nodup ∧
    τ.hist.freed = [⟨1, 2, 1⟩] ∧ τ.hist.exited = [1] := by
  obtain ⟨τ, hr, hb⟩ := Reach.exec_map (f := fun τ : Traced => (τ.hist.freed, τ.hist.exited))
    (b := ([⟨1, 2, 1⟩], [1])) (Traced.boot_reachable [1, 2] 1 (by decide) (by decide))
    [.thread .yield false, .thread .exit false, .thread .yield false, .thread .yield false,
      .tick, .irqExit] (by simp [Admissible, Fresh]) (by decide)
  obtain ⟨hfreed, hexited⟩ := Prod.mk.inj hb
  exact ⟨τ, (thread_lifecycle hr).1, hfreed, hexited⟩

end

end Tianole.Sched
