import Mathlib.Data.List.Nodup
import Mathlib.Data.List.Range
import Tianole.Sched.Effect

/-! Runs of the scheduler with a history. The history is kept beside the system and written
from events only: creations, calls of `kernel_thread_exit`, arguments of `kfree`, and the
`wait_queue` field of the running thread. The lists of the scheduler are compared with it. -/
namespace Tianole.Sched
open Runs Links

/-- One thread from creation to release. Objects are used again after `kfree`, numbers are not. -/
structure Life where
  number : ℕ
  object : ThreadPtr
  stack : ℕ
  deriving DecidableEq, Repr

/-- What has happened: the life begun last on each object, all creations, the numbers of the
threads that have called `kernel_thread_exit`, all releases, and the order of arrival on each
wait queue. -/
structure History where
  life : ThreadPtr → Life
  made : List Life
  exited : List ℕ
  freed : List Life
  queued : QueuePtr → List ThreadPtr

namespace History

def empty : History := ⟨fun t => ⟨0, t, 0⟩, [], [], [], fun _ => []⟩

/-- The threads created and not yet released, in the order of creation. -/
def alive (h : History) : List ThreadPtr :=
  (h.made.filter fun l => decide (l ∉ h.freed)).map Life.object

def create (h : History) (t : ThreadPtr) (stack : ℕ) : History :=
  { h with
    life := Function.update h.life t ⟨h.made.length, t, stack⟩
    made := h.made ++ [⟨h.made.length, t, stack⟩] }

def release (h : History) (r : Release) : Life := ⟨(h.life r.object).number, r.object, r.stack⟩

/-- Arrivals and departures at the queue `q`, read off the `wait_queue` fields after a step. -/
def requeue (h : History) (current : Option ThreadPtr) (s : Scheduler) (q : QueuePtr) :
    List ThreadPtr :=
  (h.queued q).filter (fun t => decide ((s.thread t).waitQueue = some q)) ++
    current.toList.filter fun c => decide ((s.thread c).waitQueue = some q ∧ c ∉ h.queued q)

end History

/-- The history after a step from `σ` to `σ'`. -/
def History.record (h : History) (σ : System) (act : Action) (σ' : System) : History :=
  let h' := (σ.spawned act).foldl
    (fun h t => h.create t (σ'.kernel.sched.thread t).stackBase) h
  { h' with
    exited := h.exited ++ (σ.exits act).map fun t => (h.life t).number
    freed := h.freed ++ (σ.released act).map h.release
    queued := h.requeue σ.kernel.sched.currentThread σ'.kernel.sched }

structure Traced where
  sys : System
  hist : History

namespace Traced

def step (τ : Traced) (act : Action) : Except Stop Traced :=
  (τ.sys.step act).map fun σ' => ⟨σ', τ.hist.record τ.sys act σ'⟩

end Traced

/-- The schedulers made by `sched_init` and calls of `kernel_thread_create`. -/
inductive Created : Scheduler → History → Prop
  | init : Created bootScheduler .empty
  | create {s : Scheduler} {h : History} {t : ThreadPtr} {entry stack : ℕ} : Created s h →
      s.allocated t = false → stack ≠ 0 →
      Created (enqueueThread (initThread s t entry stack) t) (h.create t stack)

/-- The states in which `sched_start` hands over to the scheduler: one of the threads is the
idle thread, the boot context is running, and the clock may have ticked. -/
structure Traced.Initial (τ : Traced) : Prop where
  created : ∃ s i n, Created s τ.hist ∧ i ∈ τ.hist.alive ∧
    τ.sys.kernel.sched = { s with idleThread := some i, tickCount := n }
  entry : ∀ t ∈ τ.hist.alive, τ.sys.pc t = .entry
  free : τ.sys.kernel.locks.Free

def Traced.Reachable : Traced → Prop :=
  Reach Traced.step Traced.Initial fun τ act => Admissible τ.sys act

/-! ### The history and the lists agree -/

structure Lockstep (τ : Traced) (a : Shape) : Prop where
  inv : Inv false τ.sys a
  numbers : τ.hist.made.map Life.number = List.range τ.hist.made.length
  lives : τ.hist.made.filter (fun l => decide (l ∉ τ.hist.freed)) = a.run.map τ.hist.life
  object : ∀ t ∈ a.run, (τ.hist.life t).object = t
  stack : ∀ t ∈ a.run, (τ.hist.life t).stack = (τ.sys.kernel.sched.thread t).stackBase
  exits : ∀ t ∈ a.run, τ.sys.pc t = .exitYield → (τ.hist.life t).number ∈ τ.hist.exited
  freedMade : ∀ l ∈ τ.hist.freed, l ∈ τ.hist.made
  freedOnce : (τ.hist.freed.map Life.number).Nodup
  freedExited : ∀ l ∈ τ.hist.freed, l.number ∈ τ.hist.exited
  queued : τ.hist.queued = a.wait

section
variable {τ τ' : Traced} {a : Shape} {h : History} {s : Scheduler} {t u : ThreadPtr}

theorem Lockstep.alive (hl : Lockstep τ a) : τ.hist.alive = a.run := by
  rw [History.alive, hl.lives, List.map_map]
  exact (List.map_congr_left fun t ht => hl.object t ht).trans (List.map_id _)

theorem Lockstep.life_mem (hl : Lockstep τ a) (ht : t ∈ a.run) :
    τ.hist.life t ∈ τ.hist.made ∧ τ.hist.life t ∉ τ.hist.freed := by
  have hm : τ.hist.life t ∈ τ.hist.made.filter fun l => decide (l ∉ τ.hist.freed) := by
    rw [hl.lives]
    exact List.mem_map_of_mem ht
  simpa using hm

/-- Numbers tell lives apart. -/
theorem Lockstep.number_inj (hl : Lockstep τ a) {l l' : Life} (h : l ∈ τ.hist.made)
    (h' : l' ∈ τ.hist.made) (hn : l.number = l'.number) : l = l' := by
  have hnd : (τ.hist.made.map Life.number).Nodup := by
    rw [hl.numbers]
    exact List.nodup_range
  exact List.inj_on_of_nodup_map hnd h h' hn

/-- A live thread has a number of its own, and not one of a released thread. -/
theorem Lockstep.life_inj (hl : Lockstep τ a) (ht : t ∈ a.run) (hu : u ∈ a.run)
    (hn : (τ.hist.life t).number = (τ.hist.life u).number) : t = u := by
  have he := hl.number_inj (hl.life_mem ht).1 (hl.life_mem hu).1 hn
  rw [← hl.object t ht, ← hl.object u hu, he]

theorem Lockstep.number_notMem (hl : Lockstep τ a) (ht : t ∈ a.run) :
    (τ.hist.life t).number ∉ τ.hist.freed.map Life.number := by
  intro hm
  obtain ⟨l, hf, hn⟩ := List.mem_map.mp hm
  have he := hl.number_inj (hl.freedMade l hf) (hl.life_mem ht).1 hn
  exact (hl.life_mem ht).2 (he ▸ hf)

/-! ### The start -/

/-- A scheduler on which threads have only been created, with its history. -/
structure Begun (s : Scheduler) (h : History) : Prop where
  booted : Booted s h.alive
  numbers : h.made.map Life.number = List.range h.made.length
  lives : h.made = h.alive.map h.life
  object : ∀ t ∈ h.alive, (h.life t).object = t
  stack : ∀ t ∈ h.alive, (h.life t).stack = (s.thread t).stackBase
  exited : h.exited = []
  freed : h.freed = []
  queued : h.queued = fun _ => []

theorem History.alive_of_freed (hf : h.freed = []) : h.alive = h.made.map Life.object := by
  simp [History.alive, hf]

theorem History.alive_create (hf : h.freed = []) (t : ThreadPtr) (stack : ℕ) :
    (h.create t stack).alive = h.alive ++ [t] := by
  rw [History.alive_of_freed hf, History.alive_of_freed (h := h.create t stack) hf]
  simp [History.create]

theorem enqueueInit_stackBase (entry stack : ℕ) :
    ((enqueueThread (initThread s t entry stack) t).thread u).stackBase =
      if u = t then stack else (s.thread u).stackBase := by
  have hskel := congrArg (fun s => (s.thread u).stackBase)
    (enqueueInit_skeleton (s := s) (t := t) entry stack)
  refine hskel.trans ?_
  change (Function.update s.thread t _ u).stackBase = _
  rw [Function.update_apply]
  split <;> rfl

theorem Begun.create {entry stack : ℕ} (hb : Begun s h) (ht : s.allocated t = false)
    (hs : stack ≠ 0) : Begun (enqueueThread (initThread s t entry stack) t) (h.create t stack) := by
  have htm : t ∉ h.alive := fun hm => by
    rw [(hb.booted.rep.allocated t).mpr hm] at ht
    cases ht
  have halive : (h.create t stack).alive = h.alive ++ [t] := History.alive_create hb.freed t stack
  have hold : ∀ u ∈ h.alive, (h.create t stack).life u = h.life u := fun u hu =>
    Function.update_of_ne (by rintro rfl; exact htm hu) _ _
  have hnew : (h.create t stack).life t = ⟨h.made.length, t, stack⟩ := Function.update_self _ _ _
  refine ⟨halive ▸ hb.booted.create htm hs, ?_, ?_, fun u hu => ?_, fun u hu => ?_, hb.exited,
    hb.freed, hb.queued⟩
  · change (h.made ++ [_]).map _ = List.range (h.made ++ [_]).length
    rw [List.map_append, hb.numbers, List.length_append, List.length_singleton, List.range_succ]
    rfl
  · rw [halive, List.map_append, List.map_congr_left hold, ← hb.lives, List.map_singleton, hnew]
    rfl
  · rw [halive] at hu
    rcases List.mem_append.mp hu with hu | hu
    · rw [hold u hu]; exact hb.object u hu
    · rw [List.mem_singleton.mp hu, hnew]
  · rw [halive] at hu
    rw [enqueueInit_stackBase]
    rcases List.mem_append.mp hu with hm | hm
    · rw [hold u hm, if_neg (by rintro rfl; exact htm hm)]; exact hb.stack u hm
    · rw [List.mem_singleton.mp hm, hnew, if_pos rfl]

theorem Created.begun (hc : Created s h) : Begun s h := by
  induction hc with
  | init => exact ⟨bootScheduler_booted, rfl, rfl, by simp [History.alive, History.empty],
      by simp [History.alive, History.empty], rfl, rfl, rfl⟩
  | create _ ht hs ih => exact ih.create ht hs

theorem Traced.Initial.lockstep (hi : Traced.Initial τ) :
    Lockstep τ ⟨τ.hist.alive, fun _ => []⟩ := by
  obtain ⟨s, i, n, hc, him, hs⟩ := hi.created
  have hb := hc.begun
  have hbooted : Booted τ.sys.kernel.sched τ.hist.alive := by
    rw [hs]
    exact ⟨hb.booted.rep.congr rfl rfl rfl rfl rfl (fun _ => rfl) rfl rfl, hb.booted.ready,
      hb.booted.wakeTick, hb.booted.stack, hb.booted.current, hb.booted.unlocked,
      hb.booted.depth⟩
  have hinit : Sched.Initial τ.sys τ.hist.alive :=
    ⟨hbooted, hi.entry, ⟨i, him, by rw [hs]⟩, hi.free⟩
  refine ⟨hinit.inv, hb.numbers, ?_, hb.object, fun t ht => ?_, fun t ht he => ?_, ?_, ?_, ?_,
    hb.queued⟩
  · simpa [hb.freed] using hb.lives
  · rw [hs]; exact hb.stack t ht
  · rw [hi.entry t ht] at he
    cases he
  · simp [hb.freed]
  · simp [hb.freed]
  · simp [hb.freed]

/-! ### One step -/

/-- The queue read off the `wait_queue` fields is the queue that the links spell. -/
theorem requeue_eq {a' : Shape} {s' : Scheduler} {current : Option ThreadPtr} {q : QueuePtr}
    (hq : h.queued q = a.wait q) (hn : (a.wait q).Nodup) (hrep : Represents s' a')
    (hsub : ∀ t ∈ a.wait q, t ∈ a'.run) (hcur : ∀ c, current = some c → c ∈ a'.run)
    (hw : WaitStep current (a.wait q) (a'.wait q)) : h.requeue current s' q = a'.wait q := by
  have howner {t : ThreadPtr} (ht : t ∈ a'.run) :
      (s'.thread t).waitQueue = some q ↔ t ∈ a'.wait q := (hrep.owner q t ht).symm
  have hkeep : (h.queued q).filter (fun t => decide ((s'.thread t).waitQueue = some q)) =
      (a.wait q).filter fun t => decide (t ∈ a'.wait q) := by
    rw [hq]
    exact List.filter_congr fun t ht => by simp only [howner (hsub t ht)]
  rw [History.requeue, hkeep]
  rcases hw with hsl | ⟨c, rfl, hl⟩
  · have hnone : (current.toList.filter fun c =>
        decide ((s'.thread c).waitQueue = some q ∧ c ∉ h.queued q)) = [] := by
      refine List.filter_eq_nil_iff.mpr fun c hc => ?_
      have hc' : current = some c := by simpa using hc
      simp only [howner (hcur c hc'), hq, decide_eq_true_eq, not_and, not_not]
      exact fun hm => hsl.subset hm
    rw [hnone, List.append_nil]
    exact filter_mem_of_sublist hn hsl
  · have hn' := hrep.wait_nodup q
    rw [hl] at hn'
    have hc : c ∉ a.wait q := fun hm => (List.nodup_append.mp hn').2.2 c hm c (by simp) rfl
    have hjoined : (s'.thread c).waitQueue = some q :=
      (howner (hcur c rfl)).mpr (by rw [hl]; simp)
    rw [List.filter_eq_self.mpr (by intro t ht; simp [hl, ht])]
    simp [hjoined, hq, hc, hl]

/-- What the creations of one step add to the history. -/
structure Grown (h h' : History) (new : List ThreadPtr) (stack : ThreadPtr → ℕ) : Prop where
  made : h'.made = h.made ++ new.map h'.life
  numbers : h'.made.map Life.number = List.range h'.made.length
  old : ∀ u ∉ new, h'.life u = h.life u
  life : ∀ u ∈ new, h'.life u = ⟨h.made.length, u, stack u⟩

theorem foldl_create_grown {made : List ThreadPtr} {stack : ThreadPtr → ℕ}
    (hn : h.made.map Life.number = List.range h.made.length)
    (hm : made = [] ∨ ∃ t, made = [t]) :
    Grown h (made.foldl (fun h t => h.create t (stack t)) h) made stack := by
  rcases hm with rfl | ⟨t, rfl⟩
  · exact ⟨by simp, hn, fun _ _ => rfl, by simp⟩
  · have hnew : (h.create t (stack t)).life t = ⟨h.made.length, t, stack t⟩ :=
      Function.update_self _ _ _
    refine ⟨?_, ?_, fun u hu => Function.update_of_ne (by simpa using hu) _ _, fun u hu => ?_⟩
    · rw [List.foldl_cons, List.foldl_nil, List.map_singleton, hnew]
      rfl
    · change (h.made ++ [_]).map _ = List.range (h.made ++ [_]).length
      rw [List.map_append, hn, List.length_append, List.length_singleton, List.range_succ]
      rfl
    · obtain rfl := List.mem_singleton.mp hu
      exact hnew

theorem Lockstep.number_lt (hl : Lockstep τ a) {l : Life} (h : l ∈ τ.hist.made) :
    l.number < τ.hist.made.length := by
  have hm := List.mem_map_of_mem (f := Life.number) h
  rw [hl.numbers] at hm
  exact List.mem_range.mp hm

/-- The reaper frees a thread with the stack of its creation. -/
theorem Lockstep.release_eq (hl : Lockstep τ a) (dead : List ThreadPtr)
    (hd : ∀ t ∈ dead, t ∈ a.run) :
    (dead.map fun t => (⟨t, (τ.sys.kernel.sched.thread t).stackBase⟩ : Release)).map
      τ.hist.release = dead.map τ.hist.life := by
  rw [List.map_map]
  refine List.map_congr_left fun t ht => ?_
  have hobject := hl.object t (hd t ht)
  have hstack := hl.stack t (hd t ht)
  cases hlife : τ.hist.life t with
  | mk number object stack =>
    rw [hlife] at hobject hstack
    simp only [Function.comp, History.release, hlife]
    rw [← hstack, ← hobject]

/-- The lives that go on after a step. -/
theorem Lockstep.lives_step (hl : Lockstep τ a) {h' : History} {made dead : List ThreadPtr}
    {stack : ThreadPtr → ℕ} (hd : ∀ t ∈ dead, t ∈ a.run) (hm : ∀ t ∈ made, t ∉ a.run)
    (hg : Grown τ.hist h' made stack) :
    h'.made.filter (fun l => decide (l ∉ τ.hist.freed ++ dead.map τ.hist.life)) =
      (a.run.filter (fun t => decide (t ∉ dead)) ++ made).map h'.life := by
  have hold : ∀ u ∈ a.run, h'.life u = τ.hist.life u := fun u hu =>
    hg.old u fun hmu => hm u hmu hu
  rw [hg.made, List.filter_append, List.map_append]
  congr 1
  · calc τ.hist.made.filter (fun l => decide (l ∉ τ.hist.freed ++ dead.map τ.hist.life))
      _ = (τ.hist.made.filter fun l => decide (l ∉ τ.hist.freed)).filter
          fun l => decide (l ∉ dead.map τ.hist.life) := by
        rw [List.filter_filter]
        refine List.filter_congr fun l _ => ?_
        simp only [List.mem_append, not_or, Bool.decide_and, Bool.and_comm]
      _ = (a.run.filter fun t => decide (τ.hist.life t ∉ dead.map τ.hist.life)).map τ.hist.life := by
        rw [hl.lives, List.filter_map]
        rfl
      _ = (a.run.filter fun t => decide (t ∉ dead)).map τ.hist.life := by
        congr 1
        refine List.filter_congr fun t ht => ?_
        have hiff : τ.hist.life t ∈ dead.map τ.hist.life ↔ t ∈ dead := by
          refine ⟨fun hmem => ?_, List.mem_map_of_mem⟩
          obtain ⟨u, hu, he⟩ := List.mem_map.mp hmem
          obtain rfl := hl.life_inj (hd u hu) ht (congrArg Life.number he)
          exact hu
        simp only [hiff]
      _ = _ := List.map_congr_left fun t ht => (hold t (List.mem_filter.mp ht).1).symm
  · -- A new number is none of those released.
    refine List.filter_eq_self.mpr fun l hlm => ?_
    obtain ⟨u, hu, rfl⟩ := List.mem_map.mp hlm
    rw [hg.life u hu, decide_eq_true_eq, List.mem_append, not_or]
    constructor
    · intro hf
      exact Nat.lt_irrefl _ (hl.number_lt (hl.freedMade _ hf))
    · intro hdm
      obtain ⟨t, ht, he⟩ := List.mem_map.mp hdm
      have hlt := hl.number_lt (hl.life_mem (hd t ht)).1
      rw [he] at hlt
      exact Nat.lt_irrefl _ hlt

/-- Threads on a wait queue stay on the run queue. -/
theorem StepCase.waiting_mem {σ σ' : System} {a' : Shape} {act : Action} {made : List ThreadPtr}
    {gone : List Release} {q : QueuePtr} (hcase : StepCase σ a act σ' a' made gone)
    (hrep : Represents σ.kernel.sched a) (hrep' : Represents σ'.kernel.sched a') :
    ∀ t ∈ a.wait q, t ∈ a'.run := by
  intro t ht
  have hm := hrep.waitSub q t ht
  have hrun := hcase.run
  cases hcase with
  | rest | tick => exact hm
  | wake | thread =>
    rw [hrun]
    exact List.mem_append_left _ (by simpa using hm)
  | yield => exact hrep'.waitSub q t ht

/-- The creations of a step, as they are recorded. -/
theorem Lockstep.grown {σ' : System} {a' : Shape} {act : Action} {gone : List Release}
    (hl : Lockstep τ a) (hcase : StepCase τ.sys a act σ' a' (τ.sys.spawned act) gone) :
    Grown τ.hist (τ.hist.record τ.sys act σ') (τ.sys.spawned act)
      fun t => (σ'.kernel.sched.thread t).stackBase :=
  have hg := foldl_create_grown hl.numbers
    (hcase.made_cases.imp_right fun ⟨t, ht, _⟩ => ⟨t, ht⟩)
  ⟨hg.made, hg.numbers, hg.old, hg.life⟩

theorem Lockstep.step {act : Action} (hl : Lockstep τ a) (hadm : Admissible τ.sys act)
    (hs : τ.step act = .ok τ') : ∃ a', Lockstep τ' a' ∧
      StepCase τ.sys a act τ'.sys a' (τ.sys.spawned act) (τ.sys.released act) := by
  obtain ⟨σ', hstep, rfl⟩ := map_ok hs
  obtain ⟨a', hinv, hcase⟩ := hl.inv.step_cases hadm hstep
  have hrep := hl.inv.base.wf.rep
  have hrep' := hinv.base.wf.rep
  obtain ⟨dead, hdn, hdead, hgone⟩ := hcase.dead hrep.nodup
  have hdm : ∀ t ∈ dead, t ∈ a.run := fun t ht => (hdead t ht).1
  have hfresh := hinv.spawned_notMem hcase
  have hg := hl.grown hcase
  have hrun : a'.run = a.run.filter (fun t => decide (t ∉ dead)) ++ τ.sys.spawned act := by
    rw [hcase.run, hgone]
    simp [Function.comp_def]
  have hfreed : (τ.hist.record τ.sys act σ').freed = τ.hist.freed ++ dead.map τ.hist.life := by
    rw [← hl.release_eq dead hdm, ← hgone]
    rfl
  have hold : ∀ t ∈ a.run, (τ.hist.record τ.sys act σ').life t = τ.hist.life t := fun t ht =>
    hg.old t fun hm => hfresh t hm ht
  have hmem {P : ThreadPtr → Prop} (hkept : ∀ t ∈ a.run, t ∈ a'.run → t ∉ τ.sys.spawned act → P t)
      (hnew : ∀ t ∈ τ.sys.spawned act, P t) : ∀ t ∈ a'.run, P t := by
    intro t ht
    have ht' := ht
    rw [hrun] at ht
    rcases List.mem_append.mp ht with hm | hm
    · have hta := (List.mem_filter.mp hm).1
      exact hkept t hta ht' fun hsp => hfresh t hsp hta
    · exact hnew t hm
  have hexited {n : ℕ} (hn : n ∈ τ.hist.exited) :
      n ∈ (τ.hist.record τ.sys act σ').exited := List.mem_append_left _ hn
  -- A zombie has called `exit`, since it stands in its exit loop.
  have hzombie : ∀ t ∈ dead, (τ.hist.life t).number ∈ τ.hist.exited := by
    intro t ht
    obtain ⟨htm, hr⟩ := hdead t ht
    refine hl.exits t htm ((hl.inv.base.wf.threads t htm).fits.zombie_point ?_)
    exact (reapable_iff.mp hr).1
  refine ⟨a', ⟨hinv, hg.numbers, ?_, hmem (fun t ht _ _ => ?_) fun t ht => ?_,
    hmem (fun t ht _ hsp => ?_) fun t ht => ?_, hmem (fun t ht _ hsp he => ?_) fun t ht he => ?_,
    ?_, ?_, ?_, funext fun q => ?_⟩, hcase⟩
  · rw [hrun, hfreed]
    exact hl.lives_step hdm hfresh hg
  · rw [hold t ht]; exact hl.object t ht
  · exact congrArg Life.object (hg.life t ht)
  · rw [hold t ht, hcase.stack hl.inv hadm hsp]; exact hl.stack t ht
  · exact congrArg Life.stack (hg.life t ht)
  · rw [hold t ht]
    rcases hcase.exits hsp he with hpc | hex
    · exact hexited (hl.exits t ht hpc)
    · exact List.mem_append_right _ (List.mem_map_of_mem hex)
  · rw [hcase.made_entry ht] at he
    cases he
  · intro l hlm
    rw [hfreed] at hlm
    refine (congrArg (l ∈ ·) hg.made).mpr (List.mem_append_left _ ?_)
    rcases List.mem_append.mp hlm with hlm | hlm
    · exact hl.freedMade l hlm
    · obtain ⟨t, ht, rfl⟩ := List.mem_map.mp hlm
      exact (hl.life_mem (hdm t ht)).1
  · rw [hfreed, List.map_append, List.map_map]
    refine List.nodup_append.mpr ⟨hl.freedOnce, ?_, ?_⟩
    · exact hdn.map_on fun t ht u hu he => hl.life_inj (hdm t ht) (hdm u hu) he
    · rintro n hn m hm rfl
      obtain ⟨t, ht, rfl⟩ := List.mem_map.mp hm
      exact hl.number_notMem (hdm t ht) hn
  · intro l hlm
    rw [hfreed] at hlm
    rcases List.mem_append.mp hlm with hlm | hlm
    · exact hexited (hl.freedExited l hlm)
    · obtain ⟨t, ht, rfl⟩ := List.mem_map.mp hlm
      exact hexited (hzombie t ht)
  · refine requeue_eq (congrFun hl.queued q) (hrep.wait_nodup q) hrep'
      (hcase.waiting_mem hrep hrep') (fun c hc => ?_) (hcase.waits q)
    have hm := hl.inv.base.wf.current c hc
    rw [hrun]
    refine List.mem_append_left _ (List.mem_filter.mpr ⟨hm, ?_⟩)
    rw [decide_eq_true_eq]
    exact fun hcd => (reapable_iff.mp (hdead c hcd).2).2 hc.symm

theorem Traced.Reachable.lockstep (h : Traced.Reachable τ) : ∃ a, Lockstep τ a := by
  refine Reach.invariant (I := fun τ => ∃ a, Lockstep τ a) h
    (fun _ hi => ⟨_, Traced.Initial.lockstep hi⟩) ?_
  rintro τ act τ' ⟨a, hl⟩ hadm hs
  obtain ⟨a', hl', -⟩ := hl.step hadm hs
  exact ⟨a', hl'⟩

/-! ### The linked structure -/

/-- The lists as the code links them, compared with the history: the run queue holds the live
threads in the order of creation, and each wait queue its threads in the order of arrival. -/
structure Linked (s : Scheduler) (h : History) : Prop where
  run : Path s.links s.runQueueHead h.alive none
  runTail : s.runQueueTail = h.alive.getLast?
  runOnce : h.alive.Nodup
  current : ∀ c, s.currentThread = some c → c ∈ h.alive
  running : ∀ t ∈ h.alive, (s.thread t).state = .running → s.currentThread = some t
  wait : ∀ q, Path s.waitLinks (s.queue q).head (h.queued q) none
  waitTail : ∀ q, (s.queue q).tail = (h.queued q).getLast?
  waitOnce : ∀ q, (h.queued q).Nodup
  waitAlive : ∀ q, ∀ t ∈ h.queued q, t ∈ h.alive
  member : ∀ q, ∀ t ∈ h.alive, t ∈ h.queued q ↔ (s.thread t).waitQueue = some q

theorem Lockstep.linked (hl : Lockstep τ a) : Linked τ.sys.kernel.sched τ.hist := by
  have hrep := hl.inv.base.wf.rep
  refine ⟨?_, ?_, ?_, ?_, ?_, ?_, ?_, ?_, ?_, ?_⟩ <;>
    simp only [hl.alive, hl.queued]
  · exact hrep.run
  · exact hrep.runTail
  · exact hrep.nodup
  · exact hl.inv.base.wf.current
  · exact hl.inv.base.running
  · exact hrep.wait
  · exact hrep.waitTail
  · exact hrep.wait_nodup
  · exact hrep.waitSub
  · exact hrep.owner

/-- The panics with which a step can end. -/
theorem Lockstep.step_error {act : Action} {e : Stop} (hl : Lockstep τ a)
    (hadm : Admissible τ.sys act) (hs : τ.step act = .error e) :
    e = .panic .invalidThreadStateTransition ∨ e = .panic .exitWithoutCurrent ∨
      e = .panic .wakeupNonWaiting := by
  rcases hl.inv.step_error hadm (map_error hs) with ⟨-, he⟩ | he | ⟨he, -⟩
  · exact .inl he
  · exact .inr (.inl he)
  · exact .inr (.inr he)

/-- Boot with the given thread objects, one of them for the idle thread. -/
def Traced.boot (objects : List ThreadPtr) (idle : ThreadPtr) : Traced :=
  ⟨System.boot objects idle, objects.foldl (fun h t => h.create t 1) .empty⟩

theorem foldl_created {objects : List ThreadPtr} (hc : Created s h) (hn : objects.Nodup)
    (hfree : ∀ t ∈ objects, s.allocated t = false) :
    Created (objects.foldl bootCreate s) (objects.foldl (fun h t => h.create t 1) h) := by
  induction objects generalizing s h with
  | nil => exact hc
  | cons t objects ih =>
    obtain ⟨ht, hn⟩ := List.nodup_cons.mp hn
    refine ih (.create hc (hfree t (by simp)) Nat.one_ne_zero) hn fun u hu => ?_
    have hskel := congrArg (fun s => s.allocated u)
      (enqueueInit_skeleton (s := s) (t := t) 1 1)
    refine hskel.trans ?_
    change Function.update s.allocated t true u = false
    rw [Function.update_of_ne (by rintro rfl; exact ht hu)]
    exact hfree u (by simp [hu])

theorem Traced.boot_initial (objects : List ThreadPtr) (idle : ThreadPtr)
    (hn : objects.Nodup) (hi : idle ∈ (Traced.boot objects idle).hist.alive) :
    Traced.Initial (.boot objects idle) :=
  ⟨⟨_, idle, _, foldl_created .init hn fun _ _ => rfl, hi, rfl⟩, fun _ _ => rfl, fun _ => rfl, rfl⟩

theorem Traced.boot_reachable (objects : List ThreadPtr) (idle : ThreadPtr)
    (hn : objects.Nodup) (hi : idle ∈ (Traced.boot objects idle).hist.alive) :
    Traced.Reachable (.boot objects idle) := .start (Traced.boot_initial objects idle hn hi)

end

end Tianole.Sched
