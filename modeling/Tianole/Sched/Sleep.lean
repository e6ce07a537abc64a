import Tianole.Sched.Bystander

/-! `sched_sleep`: from its deadline's computation on, through every interleaving of other threads
and interrupts, to the tick that wakes the sleeper. -/
namespace Tianole.Sched
open Runs Word

/-- The step is the next one of thread `c`. -/
def System.Own (σ : System) (c : ThreadPtr) (act : Action) : Prop :=
  σ.kernel.sched.currentThread = some c ∧ σ.halted = false ∧ ∃ call cond, act = .thread call cond

/-- Where a call of `sched_sleep` is: the deadline has been computed, the thread sleeps, or the
timer has woken it. -/
inductive SleepPhase where
  | called | asleep | woken
  deriving DecidableEq, Repr

/-- The runs of the system from a call of `sched_sleep(n)` by thread `c` on, with the sum of `n`
and the count that it read. The thread is asleep from its next step to the first tick whose count
reaches the deadline. -/
inductive Sleeper (c : ThreadPtr) (deadline : ℕ) : SleepPhase → System → Prop
  | call {σ σ' : System} {n : ℕ} {cond : Bool} : Reachable (fun _ _ => True) σ →
      σ.Own c (.thread (.sleep n) cond) → σ.pc c = .entry → 1 ≤ n →
      deadline = σ.kernel.sched.tickCount + n → deadline < 2 ^ 64 →
      σ.step (.thread (.sleep n) cond) = .ok σ' → Sleeper c deadline .called σ'
  | delay {σ σ' : System} {act : Action} : Sleeper c deadline .called σ → Admissible σ act →
      ¬ σ.Own c act → σ.step act = .ok σ' → Sleeper c deadline .called σ'
  | mark {σ σ' : System} {act : Action} : Sleeper c deadline .called σ → Admissible σ act →
      σ.Own c act → σ.step act = .ok σ' → Sleeper c deadline .asleep σ'
  | early {σ σ' : System} {act : Action} : Sleeper c deadline .asleep σ → Admissible σ act →
      σ.step act = .ok σ' → (act = .tick → σ'.kernel.sched.tickCount < deadline) →
      Sleeper c deadline .asleep σ'
  | due {σ σ' : System} : Sleeper c deadline .asleep σ → σ.step .tick = .ok σ' →
      deadline ≤ σ'.kernel.sched.tickCount → Sleeper c deadline .woken σ'

section
variable {σ σ' : System} {a a' : Shape} {act : Action} {c u : ThreadPtr} {deadline : ℕ}
  {phase : SleepPhase}

theorem System.step_own {call : Call} {cond : Bool} (hh : σ.halted = false)
    (hc : σ.kernel.sched.currentThread = some c) (hs : σ.step (.thread call cond) = .ok σ') :
    ∃ k control, threadStep σ.kernel (σ.pc c) call cond = .ok (k, control) ∧
      σ.finish k control = .ok σ' := by
  have hpoint : σ.point = σ.pc c := by simp [System.point, hc]
  simp only [System.step, hh, Bool.false_eq_true, ↓reduceIte, hpoint] at hs
  obtain ⟨⟨k, control⟩, hstep, hfin⟩ := bind_ok hs
  exact ⟨k, control, hstep, hfin⟩

/-- What a tick does to each thread. -/
theorem Inv.tick_thread (h : Inv false σ a) (hs : σ.step .tick = .ok σ') :
    σ'.kernel.sched.tickCount = wrap64 (σ.kernel.sched.tickCount + 1) ∧
      ∀ u, σ'.kernel.sched.thread u =
        if u ∈ a.run ∧ (σ.kernel.sched.thread u).state = .sleeping ∧
          (σ.kernel.sched.thread u).wakeTick ≤ σ'.kernel.sched.tickCount then
          { σ.kernel.sched.thread u with state := .ready, wakeTick := 0 }
        else σ.kernel.sched.thread u := by
  obtain ⟨s, ht, rfl⟩ := map_ok hs
  rw [timerTick_eq h.base.wf.rep] at ht
  obtain rfl := Except.ok.inj ht
  exact ⟨rfl, ticked_thread a.run⟩

/-- What is known of the thread in each phase. -/
def SleepPhase.Fits (c : ThreadPtr) (deadline : ℕ) (σ : System) : SleepPhase → Prop
  | .called => σ.pc c = .sleepMark deadline
  | .asleep => (σ.pc c = .sleepYield ∨ σ.pc c = .sleepReturn) ∧
      σ.kernel.sched.status c = (.sleeping, deadline, none)
  | .woken => σ.kernel.sched.status c = (.ready, 0, none)

theorem Inv.plain (h : Inv false σ a) (hc : c ∈ a.run)
    (hpc : σ.pc c = .entry ∨ ∃ d, σ.pc c = .sleepMark d) : Plain (σ.kernel.sched.thread c) := by
  have hfit := (h.base.wf.threads c hc).fits
  rcases hpc with hpc | ⟨d, hpc⟩ <;> rw [hpc] at hfit <;> exact ⟨hfit.1, hfit.2⟩

theorem Plain.not_zombie {x : Thread} (h : Plain x) : x.state ≠ .zombie := by
  rcases h.active with ha | ha <;> simp [ha]

/-- `sched_sleep` computes its deadline. -/
theorem sleep_called {n : ℕ} {cond : Bool}
    (hown : σ.Own c (.thread (.sleep n) cond)) (hpc : σ.pc c = .entry) (hn : 1 ≤ n)
    (hd : deadline = σ.kernel.sched.tickCount + n) (hlt : deadline < 2 ^ 64)
    (hs : σ.step (.thread (.sleep n) cond) = .ok σ') : σ'.pc c = .sleepMark deadline := by
  obtain ⟨hc, hh, -⟩ := hown
  obtain ⟨k, control, hstep, hfin⟩ := System.step_own hh hc hs
  have hgo : ¬ (σ.kernel.sched.currentThread = none ∨ n = 0) := by
    rw [hc]
    simp
    omega
  rw [hpc, threadStep, beginCall, if_neg hgo] at hstep
  obtain ⟨-, -, hstep⟩ := bind_ok hstep
  obtain ⟨-, rfl⟩ := Prod.mk.inj (Except.ok.inj hstep)
  obtain rfl := Except.ok.inj hfin
  have hwrap : wrap64 (σ.kernel.sched.tickCount + n) = deadline := by
    rw [hd]
    exact Nat.mod_eq_of_lt (hd ▸ hlt)
  simp only [hc, movePc_self, Control.pc, hwrap]

/-- The thread marks itself, and sleeps from then on. -/
theorem sleep_marked (h : Inv false σ a) (hown : σ.Own c act) (hm : c ∈ a.run)
    (hpc : σ.pc c = .sleepMark deadline) (hs : σ.step act = .ok σ') :
    SleepPhase.asleep.Fits c deadline σ' := by
  obtain ⟨hc, hh, call, cond, rfl⟩ := hown
  obtain ⟨k, control, hstep, hfin⟩ := System.step_own hh hc hs
  rw [hpc] at hstep
  obtain ⟨s, hset, hr⟩ := bind_ok hstep
  obtain ⟨rfl, rfl⟩ := Prod.mk.inj (Except.ok.inj hr)
  obtain rfl := Except.ok.inj hfin
  rw [threadSetSleeping, hc] at hset
  obtain ⟨-, rfl⟩ := threadSetWith_ok hset
  refine ⟨.inl ?_, ?_⟩
  · simp only [hc, movePc_self, Control.pc]
  · have hplain := h.plain hm (.inr ⟨_, hpc⟩)
    simp only [Scheduler.status, withState_thread, if_true, hplain.unlinked]

/-- A sleeper that has not reached its deadline sleeps on. -/
theorem sleep_early {made : List ThreadPtr} {gone : List Release}
    (hcase : StepCase σ a act σ' a' made gone) (h : Inv false σ a)
    (hadm : Admissible σ act) (hm : c ∈ a.run) (hmade : c ∉ made)
    (hfit : SleepPhase.asleep.Fits c deadline σ) (hs : σ.step act = .ok σ')
    (hcount : act = .tick → σ'.kernel.sched.tickCount < deadline) :
    SleepPhase.asleep.Fits c deadline σ' := by
  obtain ⟨hpc, hstatus⟩ := hfit
  have hsleep : (σ.kernel.sched.thread c).state = .sleeping := congrArg Prod.fst hstatus
  have hdeadline : (σ.kernel.sched.thread c).wakeTick = deadline :=
    congrArg (fun x => x.2.1) hstatus
  have hqueue : (σ.kernel.sched.thread c).waitQueue = none := congrArg (fun x => x.2.2) hstatus
  have hpoint : σ'.pc c = .sleepYield ∨ σ'.pc c = .sleepReturn := by
    rcases hcase.moves hmade with ⟨call, cond, rfl, hh, hc, hleads⟩ | ⟨he, -⟩
    · rcases hpc with hpc | hpc
      · rw [hpc] at hleads
        exact .inr hleads
      · -- Behind its yield the thread runs only when it is awake.
        have hyields := h.sleeping_yields hc hsleep
        rw [hpc] at hyields
        exact hyields.elim
    · rw [he]
      exact hpc
  by_cases ht : act = .tick
  · subst ht
    have hearly := hcount rfl
    have hsame : σ'.kernel.sched.thread c = σ.kernel.sched.thread c := by
      rw [(h.tick_thread hs).2, if_neg (by omega)]
    refine ⟨hpoint, ?_⟩
    rw [← hstatus, Scheduler.status, hsame]
    rfl
  · exact ⟨hpoint, (hcase.sleeper h hadm ht hm hsleep hqueue).1.trans hstatus⟩

/-- The first tick at or behind the deadline readies the sleeper. -/
theorem sleep_due (h : Inv false σ a) (hm : c ∈ a.run)
    (hfit : SleepPhase.asleep.Fits c deadline σ) (hs : σ.step .tick = .ok σ')
    (hcount : deadline ≤ σ'.kernel.sched.tickCount) : SleepPhase.woken.Fits c deadline σ' := by
  obtain ⟨-, hstatus⟩ := hfit
  have hsleep : (σ.kernel.sched.thread c).state = .sleeping := congrArg Prod.fst hstatus
  have hdeadline : (σ.kernel.sched.thread c).wakeTick = deadline :=
    congrArg (fun x => x.2.1) hstatus
  have hqueue : (σ.kernel.sched.thread c).waitQueue = none := congrArg (fun x => x.2.2) hstatus
  have hwoken : σ'.kernel.sched.thread c =
      { σ.kernel.sched.thread c with state := .ready, wakeTick := 0 } := by
    rw [(h.tick_thread hs).2, if_pos ⟨hm, hsleep, by omega⟩]
  rw [SleepPhase.Fits, Scheduler.status, hwoken, hqueue]

theorem SleepPhase.Fits.not_zombie (h : phase.Fits c deadline σ) (hinv : Inv false σ a)
    (hm : c ∈ a.run) : (σ.kernel.sched.thread c).state ≠ .zombie := by
  cases phase with
  | called => exact (hinv.plain hm (.inr ⟨_, h⟩)).not_zombie
  | asleep =>
    have hstate : (σ.kernel.sched.thread c).state = .sleeping := congrArg Prod.fst h.2
    simp [hstate]
  | woken =>
    have hstate : (σ.kernel.sched.thread c).state = .ready := congrArg Prod.fst h
    simp [hstate]

theorem Sleeper.fits (h : Sleeper c deadline phase σ) :
    ∃ a, Inv false σ a ∧ c ∈ a.run ∧ phase.Fits c deadline σ := by
  have hkeep {σ σ' : System} {act : Action} {a : Shape} (hinv : Inv false σ a) (hm : c ∈ a.run)
      (hz : (σ.kernel.sched.thread c).state ≠ .zombie) (hs : σ.step act = .ok σ')
      (hadm : Admissible σ act) : ∃ a', Inv false σ' a' ∧ c ∈ a'.run ∧
        StepCase σ a act σ' a' (σ.spawned act) (σ.released act) ∧ c ∉ σ.spawned act := by
    obtain ⟨a', hinv', hcase⟩ := hinv.step_cases hadm hs
    exact ⟨a', hinv', hcase.stays hinv hm hz, hcase, fun hmem =>
      hinv'.spawned_notMem hcase c hmem hm⟩
  induction h with
  | call hr hown hpc hn hd hlt hs =>
    obtain ⟨a, hinv⟩ := reachable_inv false hr (by simp)
    have hm := hinv.base.wf.current c hown.1
    obtain ⟨a', hinv', hm', -⟩ :=
      hkeep hinv hm (hinv.plain hm (.inl hpc)).not_zombie hs trivial
    exact ⟨a', hinv', hm', sleep_called hown hpc hn hd hlt hs⟩
  | delay _ hadm hown hs ih =>
    obtain ⟨a, hinv, hm, hfit⟩ := ih
    obtain ⟨a', hinv', hm', hcase, hmade⟩ := hkeep hinv hm (hfit.not_zombie hinv hm) hs hadm
    refine ⟨a', hinv', hm', ?_⟩
    rcases hcase.moves hmade with ⟨call, cond, he, hh, hc, -⟩ | ⟨he, -⟩
    · exact absurd ⟨hc, hh, call, cond, he⟩ hown
    · exact he.trans hfit
  | mark _ hadm hown hs ih =>
    obtain ⟨a, hinv, hm, hfit⟩ := ih
    obtain ⟨a', hinv', hm', -⟩ := hkeep hinv hm (hfit.not_zombie hinv hm) hs hadm
    exact ⟨a', hinv', hm', sleep_marked hinv hown hm hfit hs⟩
  | early _ hadm hs hcount ih =>
    obtain ⟨a, hinv, hm, hfit⟩ := ih
    obtain ⟨a', hinv', hm', hcase, hmade⟩ := hkeep hinv hm (hfit.not_zombie hinv hm) hs hadm
    exact ⟨a', hinv', hm', sleep_early hcase hinv hadm hm hmade hfit hs hcount⟩
  | due _ hs hcount ih =>
    obtain ⟨a, hinv, hm, hfit⟩ := ih
    obtain ⟨a', hinv', hm', -⟩ := hkeep hinv hm (hfit.not_zombie hinv hm) hs trivial
    exact ⟨a', hinv', hm', sleep_due hinv hm hfit hs hcount⟩

/-- A sleeper never gets the processor, whatever the next step is. -/
theorem Sleeper.not_dispatched (h : Sleeper c deadline .asleep σ) (hadm : Admissible σ act)
    (hs : σ.step act = .ok σ') (hc : σ'.kernel.sched.currentThread = some c) :
    σ.kernel.sched.currentThread = some c := by
  obtain ⟨a, hinv, hm, -, hstatus⟩ := h.fits
  obtain ⟨a', -, hcase⟩ := hinv.step_cases hadm hs
  by_cases ht : act = .tick
  · subst ht
    rw [← (hcase.switching hinv hadm).2 id]
    exact hc
  · exact (hcase.sleeper hinv hadm ht hm (congrArg Prod.fst hstatus)
      (congrArg (fun x => x.2.2) hstatus)).2 hc

theorem Sleeper.asleep (h : Sleeper c deadline .asleep σ) :
    (σ.kernel.sched.thread c).state = .sleeping ∧
      (σ.kernel.sched.thread c).wakeTick = deadline ∧
      (σ.kernel.sched.currentThread = some c → σ.pc c = .sleepYield) := by
  obtain ⟨a, hinv, hm, hpc, hstatus⟩ := h.fits
  have hsleep : (σ.kernel.sched.thread c).state = .sleeping := congrArg Prod.fst hstatus
  refine ⟨hsleep, congrArg (fun x => x.2.1) hstatus, fun hc => ?_⟩
  rcases hpc with hpc | hpc
  · exact hpc
  · have hyields := hinv.sleeping_yields hc hsleep
    rw [hpc] at hyields
    exact hyields.elim

theorem Sleeper.woken (h : Sleeper c deadline .woken σ) :
    (σ.kernel.sched.thread c).state = .ready ∧ (σ.kernel.sched.thread c).wakeTick = 0 := by
  obtain ⟨a, -, -, hstatus⟩ := h.fits
  exact ⟨congrArg Prod.fst hstatus, congrArg (fun x => x.2.1) hstatus⟩

theorem Inv.tick_ok (h : Inv false σ a) : ∃ σ', σ.step .tick = .ok σ' := by
  simp only [System.step, timerTick_eq h.base.wf.rep, Except.map]
  exact ⟨_, rfl⟩

/-- A tick changes the state and the wake tick of expired sleepers only. -/
theorem tick_changes (h : Reachable (fun _ _ => True) σ) (hs : σ.step .tick = .ok σ')
    (hchanged : (σ'.kernel.sched.thread u).state ≠ (σ.kernel.sched.thread u).state ∨
      (σ'.kernel.sched.thread u).wakeTick ≠ (σ.kernel.sched.thread u).wakeTick) :
    (σ.kernel.sched.thread u).state = .sleeping ∧
      (σ.kernel.sched.thread u).wakeTick ≤ σ'.kernel.sched.tickCount := by
  obtain ⟨a, hinv⟩ := reachable_inv false h (by simp)
  have hthread := (hinv.tick_thread hs).2 u
  by_cases hexpired : u ∈ a.run ∧ (σ.kernel.sched.thread u).state = .sleeping ∧
      (σ.kernel.sched.thread u).wakeTick ≤ σ'.kernel.sched.tickCount
  · exact hexpired.2
  · rw [if_neg hexpired] at hthread
    simp [hthread] at hchanged

end

end Tianole.Sched
