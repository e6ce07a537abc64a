import Mathlib.Data.Finset.Card
import Tianole.Lib.Cyclic
import Tianole.Sched.History

/-! Round-robin scheduling: while a ready thread waits for the processor, nobody is dispatched
twice. The threads that the search meets before the waiting one are those that may still
overtake it; a dispatch removes one of them, and only a new thread can join them. -/
namespace Tianole.Sched
open Runs Links Cyclic

/-- The thread that a step dispatches: the current thread, when `sched_yield` has switched. -/
def dispatched (τ τ' : Traced) : List ThreadPtr :=
  if τ'.sys.kernel.sched.currentThread = τ.sys.kernel.sched.currentThread then []
  else τ'.sys.kernel.sched.currentThread.toList

/-- `t` is ready on the run queue; the other threads there have their numbers in `others`. -/
structure Queueing (t : ThreadPtr) (others : Finset ℕ) (τ : Traced) : Prop where
  mem : OnRunQueue τ.sys.kernel.sched t
  ready : (τ.sys.kernel.sched.thread t).state = .ready
  company : ∀ u, OnRunQueue τ.sys.kernel.sched u → u ≠ t → (τ.hist.life u).number ∈ others

/-- An interval from `τ₀` in which `t` stays ready and is not dispatched, with the numbers of
the threads that are dispatched meanwhile. -/
inductive Interval (t : ThreadPtr) (others : Finset ℕ) (τ₀ : Traced) : List ℕ → Traced → Prop
  | start : Queueing t others τ₀ → Interval t others τ₀ [] τ₀
  | next {order : List ℕ} {τ τ' : Traced} {act : Action} : Interval t others τ₀ order τ →
      Admissible τ.sys act → τ.step act = .ok τ' → Queueing t others τ' →
      t ∉ dispatched τ τ' →
      Interval t others τ₀ (order ++ (dispatched τ τ').map fun u => (τ'.hist.life u).number) τ'

/-- The invariant of an interval: whoever has been dispatched is no longer ahead of `t`. -/
structure Overtakes (t : ThreadPtr) (others : Finset ℕ) (order : List ℕ) (τ : Traced)
    (a : Shape) : Prop where
  lock : Lockstep τ a
  nonIdle : τ.sys.kernel.sched.idleThread ≠ some t
  queueing : Queueing t others τ
  once : order.Nodup
  company : ∀ n ∈ order, n ∈ others
  made : ∀ n ∈ order, n < τ.hist.made.length
  ahead : ∀ u ∈ ahead a.run τ.sys.kernel.sched.currentThread t, (τ.hist.life u).number ∉ order
  idle : ∀ i, τ.sys.kernel.sched.idleThread = some i → (τ.hist.life i).number ∉ order

section
variable {t : ThreadPtr} {others : Finset ℕ} {order : List ℕ} {τ τ' : Traced} {a a' : Shape}
  {act : Action}

theorem Overtakes.mem (h : Overtakes t others order τ a) : t ∈ a.run :=
  h.lock.inv.base.wf.rep.onRunQueue.mp h.queueing.mem

theorem mem_of_ahead {l : List ThreadPtr} {c : Option ThreadPtr} {x : ThreadPtr} (hn : l.Nodup)
    (hc : ∀ u, c = some u → u ∈ l) (hx : x ∈ Cyclic.ahead l c t) : x ∈ l :=
  (turn_perm hn hc).mem_iff.mp (List.takeWhile_subset _ hx)

/-- A step that dispatches nobody puts only a created thread ahead. -/
theorem Overtakes.ahead_step (h : Overtakes t others order τ a) {σ' : System}
    {made : List ThreadPtr} {gone : List Release} (hinv : Inv false σ' a')
    (hcase : StepCase τ.sys a act σ' a' made gone) {x : ThreadPtr}
    (hx : x ∈ Cyclic.ahead a'.run τ.sys.kernel.sched.currentThread t) :
    x ∈ Cyclic.ahead a.run τ.sys.kernel.sched.currentThread t ∨ x ∈ made := by
  have hwf := h.lock.inv.base.wf
  obtain ⟨dead, -, hdead, hgone⟩ := hcase.dead hwf.rep.nodup
  have hobjects : gone.map Release.object = dead := by
    rw [hgone]
    simp [Function.comp_def]
  have hrun := hcase.run
  rw [hobjects] at hrun
  have hstay {u : ThreadPtr} (hu : u ∈ a.run) (hr : reapable τ.sys.kernel.sched u = false) :
      u ∈ a.run ∧ decide (u ∉ dead) = true := by
    refine ⟨hu, decide_eq_true_eq.mpr fun hd => ?_⟩
    rw [(hdead u hd).2] at hr
    cases hr
  have hcur : ∀ u, τ.sys.kernel.sched.currentThread = some u →
      u ∈ a.run ∧ decide (u ∉ dead) = true := fun u hu =>
    hstay (hwf.current u hu) (by simp [reapable, hu])
  have ht : decide (t ∉ dead) = true :=
    (hstay h.mem (by simp [reapable, threadIsZombie, h.queueing.ready])).2
  have hfilter {x : ThreadPtr} (hx : x ∈ Cyclic.ahead
      (a.run.filter fun u => decide (u ∉ dead)) τ.sys.kernel.sched.currentThread t) :
      x ∈ Cyclic.ahead a.run τ.sys.kernel.sched.currentThread t :=
    ahead_filter hwf.rep.nodup hcur ht hx
  rcases hcase.made_cases with rfl | ⟨u, rfl, -⟩
  · rw [hrun, List.append_nil] at hx
    exact .inl (hfilter hx)
  · have hn := hinv.base.wf.rep.nodup
    rw [hrun] at hn hx
    rcases ahead_concat hn (fun u hu => List.mem_filter.mpr (hcur u hu)) hx with hx | rfl
    · exact .inl (hfilter hx)
    · exact .inr (by simp)

theorem resched_current (r : Scheduler) (u : ThreadPtr) :
    (r.resched (some u)).currentThread = some u := by
  by_cases hc : r.currentThread = some u
  · simp only [Scheduler.resched, hc, ↓reduceIte]
  · simp only [Scheduler.resched, hc, ↓reduceIte]
    rfl

theorem Yielded.current {s s' : Scheduler} {pc : ThreadPtr → Pc} (h : Yielded s a pc s')
    (hne : s'.currentThread ≠ s.currentThread) : ∃ u, s'.currentThread = some u := by
  obtain ⟨r, hcur, -, -, rfl⟩ := h.pick
  cases hp : Sched.pick r (a.reap s).run with
  | none =>
    rw [hp] at hne
    exact absurd hcur hne
  | some u => exact ⟨u, resched_current r u⟩

/-- A switch goes to a thread ahead of `t` that is not the idle thread, and leaves behind it
whoever was not ahead before. -/
theorem Overtakes.switch (h : Overtakes t others order τ a) {s' : Scheduler}
    {pc : ThreadPtr → Pc} (hy : Yielded τ.sys.kernel.sched a pc s') {u : ThreadPtr}
    (hu : s'.currentThread = some u) (hne : u ≠ t) :
    u ∈ Cyclic.ahead a.run τ.sys.kernel.sched.currentThread t ∧
      τ.sys.kernel.sched.idleThread ≠ some u ∧
      ∀ x ∈ Cyclic.ahead (a.reap τ.sys.kernel.sched).run (some u) t,
        x ∈ Cyclic.ahead a.run τ.sys.kernel.sched.currentThread t ∧ x ≠ u := by
  have hwf := h.lock.inv.base.wf
  obtain ⟨r, hcur, hidle, hstate, rfl⟩ := hy.pick
  have hkeep {u : ThreadPtr} (hm : u ∈ a.run) (hr : reapable τ.sys.kernel.sched u = false) :
      u ∈ a.run ∧ (!reapable τ.sys.kernel.sched u) = true := ⟨hm, by simp [hr]⟩
  have hc : ∀ u, τ.sys.kernel.sched.currentThread = some u →
      u ∈ a.run ∧ (!reapable τ.sys.kernel.sched u) = true := fun u hu =>
    hkeep (hwf.current u hu) (by simp [reapable, hu])
  have ht := hkeep h.mem (by simp [reapable, threadIsZombie, h.queueing.ready])
  have htm : t ∈ (a.reap τ.sys.kernel.sched).run := List.mem_filter.mpr ht
  have hrt : runnable r t = true := by
    rw [runnable_iff, hstate t htm, hidle]
    exact ⟨h.queueing.ready, fun he => h.nonIdle he.symm⟩
  have hn : (a.reap τ.sys.kernel.sched).run.Nodup := hwf.rep.nodup.filter _
  have hc' : ∀ u, τ.sys.kernel.sched.currentThread = some u →
      u ∈ (a.reap τ.sys.kernel.sched).run := fun u hu => List.mem_filter.mpr (hc u hu)
  -- The search succeeds, since it would come to `t`.
  obtain ⟨v, hv⟩ : ∃ v, (turn (a.reap τ.sys.kernel.sched).run
      τ.sys.kernel.sched.currentThread).find? (runnable r) = some v :=
    Option.isSome_iff_exists.mp
      (List.find?_isSome.mpr ⟨t, (turn_perm hn hc').mem_iff.mpr htm, hrt⟩)
  have hpick : Sched.pick r (a.reap τ.sys.kernel.sched).run = some v := by
    rw [Sched.pick, searchOrder_eq_turn, hcur, hv]
    rfl
  rw [hpick, resched_current] at hu
  obtain rfl := Option.some.inj hu
  obtain ⟨hahead, hrest⟩ := ahead_find hn hc' htm hrt hv hne
  refine ⟨ahead_filter hwf.rep.nodup hc ht.2 hahead, fun hi => ?_, fun x hx => ?_⟩
  · exact (runnable_iff.mp (List.find?_some hv)).2 (hidle.trans hi).symm
  · obtain ⟨hx, hxne⟩ := hrest x hx
    exact ⟨ahead_filter hwf.rep.nodup hc ht.2 hx, hxne⟩

theorem Overtakes.step (h : Overtakes t others order τ a) (hadm : Admissible τ.sys act)
    (hs : τ.step act = .ok τ') (hq : Queueing t others τ') (ht : t ∉ dispatched τ τ') :
    ∃ a', Overtakes t others
      (order ++ (dispatched τ τ').map fun u => (τ'.hist.life u).number) τ' a' := by
  obtain ⟨a', hl', hcase⟩ := h.lock.step hadm hs
  obtain ⟨σ', -, rfl⟩ := map_ok hs
  obtain ⟨hidle, hcurrent⟩ := hcase.switching h.lock.inv hadm
  have hwf := h.lock.inv.base.wf
  have hg := h.lock.grown hcase
  have hfresh := hl'.inv.spawned_notMem hcase
  have hold : ∀ u ∈ a.run, (τ.hist.record τ.sys act σ').life u = τ.hist.life u := fun u hu =>
    hg.old u fun hm => hfresh u hm hu
  have hmade : τ.hist.made.length ≤ (τ.hist.record τ.sys act σ').made.length := by
    rw [hg.made, List.length_append]
    exact Nat.le_add_right _ _
  have hidleOld : ∀ i, σ'.kernel.sched.idleThread = some i →
      (τ.hist.record τ.sys act σ').life i = τ.hist.life i := fun i hi =>
    hold i (hwf.idle_mem i (hidle ▸ hi))
  refine ⟨a', ?_⟩
  by_cases hsame : σ'.kernel.sched.currentThread = τ.sys.kernel.sched.currentThread
  · have hnone : dispatched τ ⟨σ', τ.hist.record τ.sys act σ'⟩ = [] := if_pos hsame
    rw [hnone, List.map_nil, List.append_nil]
    refine ⟨hl', fun hi => h.nonIdle (hidle ▸ hi), hq, h.once, h.company,
      fun n hn => Nat.lt_of_lt_of_le (h.made n hn) hmade, fun u hu => ?_, fun i hi => ?_⟩
    · rw [hsame] at hu
      rcases h.ahead_step hl'.inv hcase hu with hu | hu
      · rw [hold u (mem_of_ahead hwf.rep.nodup hwf.current hu)]
        exact h.ahead u hu
      · rw [hg.life u hu]
        exact fun hm => Nat.lt_irrefl _ (h.made _ hm)
    · rw [hidleOld i hi]
      exact h.idle i (hidle ▸ hi)
  · have hyields : τ.sys.Yields act := by
      by_contra hn
      exact hsame (hcurrent hn)
    obtain ⟨rfl, -, -, hy⟩ := hcase.of_yields hyields
    have hdisp : dispatched τ ⟨σ', τ.hist.record τ.sys act σ'⟩ =
        σ'.kernel.sched.currentThread.toList := if_neg hsame
    obtain ⟨u, hu⟩ := hy.current hsame
    rw [hu, Option.toList_some] at hdisp
    rw [hdisp] at ht ⊢
    have hne : u ≠ t := fun he => ht (by simp [he])
    obtain ⟨hahead, hui, hrest⟩ := h.switch hy hu hne
    have hmem := fun {x : ThreadPtr} => mem_of_ahead (t := t) (x := x) hwf.rep.nodup hwf.current
    have hnum : (τ.hist.life u).number ∉ order := h.ahead u hahead
    rw [List.map_singleton, hold u (hmem hahead)]
    refine ⟨hl', fun hi => h.nonIdle (hidle ▸ hi), hq, ?_, ?_, ?_, fun x hx => ?_, fun i hi => ?_⟩
    · exact List.nodup_append.mpr ⟨h.once, List.nodup_singleton _, fun n hn m hm he =>
        hnum (List.mem_singleton.mp hm ▸ he ▸ hn)⟩
    · intro n hn
      rcases List.mem_append.mp hn with hn | hn
      · exact h.company n hn
      · rw [List.mem_singleton.mp hn, ← hold u (hmem hahead)]
        exact hq.company u (hl'.inv.base.wf.rep.onRunQueue.mpr (hl'.inv.base.wf.current u hu)) hne
    · intro n hn
      rcases List.mem_append.mp hn with hn | hn
      · exact Nat.lt_of_lt_of_le (h.made n hn) hmade
      · rw [List.mem_singleton.mp hn]
        exact Nat.lt_of_lt_of_le (h.lock.number_lt (h.lock.life_mem (hmem hahead)).1) hmade
    · rw [hu] at hx
      obtain ⟨hx, hxu⟩ := hrest x hx
      rw [hold x (hmem hx), List.mem_append, List.mem_singleton, not_or]
      exact ⟨h.ahead x hx, fun he => hxu (h.lock.life_inj (hmem hx) (hmem hahead) he)⟩
    · have hi' := hidle ▸ hi
      rw [hidleOld i hi, List.mem_append, List.mem_singleton, not_or]
      refine ⟨h.idle i hi', fun he => hui ?_⟩
      rw [hi', h.lock.life_inj (hwf.idle_mem i hi') (hmem hahead) he]

/-- While a thread other than the idle one is ready and is not dispatched, nobody is
dispatched twice and the idle thread not at all; so it waits for at most as many switches as
there are other threads on the run queue. -/
theorem round_robin {τ₀ : Traced} (h : Traced.Reachable τ₀)
    (hi : τ₀.sys.kernel.sched.idleThread ≠ some t) (hw : Interval t others τ₀ order τ) :
    order.Nodup ∧
      (∀ i, τ.sys.kernel.sched.idleThread = some i → (τ.hist.life i).number ∉ order) ∧
      order.length ≤ others.card := by
  have hinv : ∃ a, Overtakes t others order τ a := by
    induction hw with
    | start hq =>
      obtain ⟨a, hl⟩ := h.lockstep
      exact ⟨a, hl, hi, hq, List.nodup_nil, by simp, by simp, by simp, by simp⟩
    | next _ hadm hs hq ht ih =>
      obtain ⟨a, ha⟩ := ih
      exact ha.step hadm hs hq ht
  obtain ⟨a, ha⟩ := hinv
  refine ⟨ha.once, ha.idle, ?_⟩
  rw [← List.toFinset_card_of_nodup ha.once]
  exact Finset.card_le_card fun n hn => ha.company n (List.mem_toFinset.mp hn)

/-- On a reachable state the waiting thread and its company are read off the history. -/
theorem Traced.Reachable.queueing (h : Traced.Reachable τ) (ht : t ∈ τ.hist.alive)
    (hr : (τ.sys.kernel.sched.thread t).state = .ready)
    (ho : ∀ u ∈ τ.hist.alive, u ≠ t → (τ.hist.life u).number ∈ others) :
    Queueing t others τ := by
  obtain ⟨a, hl⟩ := h.lockstep
  have hrep := hl.inv.base.wf.rep
  rw [hl.alive] at ht ho
  exact ⟨hrep.onRunQueue.mpr ht, hr, fun u hu => ho u (hrep.onRunQueue.mp hu)⟩

/-- Thread 3 waits while the boot context yields to thread 2. -/
theorem round_robin_boot : ∃ (τ : Traced) (order : List ℕ),
    Interval 3 {0, 1} (.boot [1, 2, 3] 1) order τ ∧ order = [1] ∧ order.Nodup ∧
      order.length ≤ ({0, 1} : Finset ℕ).card := by
  have hboot : Traced.Reachable (.boot [1, 2, 3] 1) :=
    Traced.boot_reachable [1, 2, 3] 1 (by decide) (by decide)
  have hrun : ((Traced.boot [1, 2, 3] 1).step (.thread .yield false)).map (fun τ =>
      (τ.hist.alive, (τ.sys.kernel.sched.thread 3).state, τ.sys.kernel.sched.currentThread,
        (τ.hist.life 1).number, (τ.hist.life 2).number)) =
      .ok ([1, 2, 3], .ready, some 2, 0, 1) := by decide
  obtain ⟨τ, hs, hb⟩ := map_ok hrun
  simp only [Prod.mk.injEq] at hb
  obtain ⟨halive, hready, hcur, hone, htwo⟩ := hb
  have hadm : Admissible (Traced.boot [1, 2, 3] 1).sys (.thread .yield false) := trivial
  have hτ : Traced.Reachable τ := .next hboot hadm hs
  have hdisp : dispatched (.boot [1, 2, 3] 1) τ = [2] := by
    rw [dispatched, hcur]
    rfl
  have hstart : Queueing 3 {0, 1} (.boot [1, 2, 3] 1) :=
    hboot.queueing (by decide) (by decide) (by decide)
  have hend : Queueing 3 {0, 1} τ := by
    refine hτ.queueing (by simp [halive]) hready ?_
    simp [halive, hone, htwo]
  have hint := Interval.next (.start hstart) hadm hs hend (by simp [hdisp])
  refine ⟨τ, _, hint, by simp [hdisp, htwo], ?_⟩
  obtain ⟨honce, -, hlen⟩ := round_robin hboot (by decide) hint
  exact ⟨honce, hlen⟩

end

end Tianole.Sched
