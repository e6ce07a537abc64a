import Mathlib.Logic.Relation
import Tianole.Sched.Sleep

/-! Returns of `wait_queue_wait_timeout`, with the ticks that have passed since the call began and
the last value of the condition. The deadline is a sum of 64 bits: when it wraps, the call returns
too early. -/
namespace Tianole.Sched
open Runs Word

/-- What the wait condition of thread `c` evaluates to in a step, if the step evaluates it. -/
def System.evaluated (σ : System) (c : ThreadPtr) : Action → Option Bool
  | .thread call cond =>
      if σ.kernel.sched.currentThread = some c ∧ σ.halted = false then
        match σ.pc c, call with
        | .entry, .waitTimeout (some _) true _ => some cond
        | .timeoutCheck _ _ _, _ => some cond
        | _, _ => none
      else none
  | _ => none

/-- The value that a call returns. -/
def Control.value : Control → Option ℤ
  | .ret value => some value
  | _ => none

/-- What a call of thread `c` returns in a step. -/
def System.returned (σ : System) (c : ThreadPtr) : Action → Option ℤ
  | .thread call cond =>
      if σ.kernel.sched.currentThread = some c ∧ σ.halted = false then
        match threadStep σ.kernel (σ.pc c) call cond with
        | .ok (_, control) => control.value
        | .error _ => none
      else none
  | _ => none

/-- A point in time during a call. -/
structure Moment where
  sys : System
  /-- The timer ticks since the call began. -/
  elapsed : ℕ
  /-- The last evaluation of the condition. -/
  last : Option Bool

namespace Moment

def next (m : Moment) (c : ThreadPtr) (act : Action) (σ : System) : Moment where
  sys := σ
  elapsed := if act = .tick then m.elapsed + 1 else m.elapsed
  last := (m.sys.evaluated c act).or m.last

/-- `m'` comes after `m`. -/
def Leads (c : ThreadPtr) (m m' : Moment) : Prop :=
  ∃ act σ, Admissible m.sys act ∧ m.sys.step act = .ok σ ∧ m' = m.next c act σ

/-- What a caller may rely on when the call returns `value`. -/
structure Honours (m : Moment) (c : ThreadPtr) (ticks : ℕ) (value : ℤ) : Prop where
  timeout : value = -etimedout → ticks ≤ m.elapsed ∧ m.last = some false
  success : value = 0 → m.last = some true
  unlinked : (m.sys.kernel.sched.thread c).waitQueue = none
  wakeTick : (m.sys.kernel.sched.thread c).wakeTick = 0

/-- The deadline that the thread is about to compute does not wrap, or the ticks are over by now. -/
def InTime (c : ThreadPtr) (ticks : ℕ) (m : Moment) (act : Action) : Prop :=
  m.sys.Own c act → (∃ q, m.sys.pc c = .timeoutDeadline q ticks) →
    m.sys.kernel.sched.tickCount + ticks < 2 ^ 64 ∨ ticks ≤ m.elapsed

end Moment

/-- The runs of the system from a call `wait_queue_wait_timeout(queue, condition, arg, ticks)` of
thread `c` on, as long as the steps meet `ok`. The first index is what the call has returned. -/
inductive TimedWait (ok : Moment → Action → Prop) (c : ThreadPtr) (ticks : ℕ) :
    Option ℤ → Moment → Prop
  | call {σ σ' : System} {queue : Option QueuePtr} {hasCondition cond : Bool} {act : Action} :
      act = .thread (.waitTimeout queue hasCondition ticks) cond →
      Reachable (fun _ _ => True) σ → σ.Own c act → σ.pc c = .entry → σ.step act = .ok σ' →
      TimedWait ok c ticks (σ.returned c act) ((Moment.mk σ 0 none).next c act σ')
  | step {m : Moment} {σ' : System} {act : Action} : TimedWait ok c ticks none m →
      Admissible m.sys act → ok m act → m.sys.step act = .ok σ' →
      TimedWait ok c ticks (m.sys.returned c act) (m.next c act σ')

theorem TimedWait.next {ok : Moment → Action → Prop} {c : ThreadPtr} {ticks : ℕ} {m : Moment}
    {act : Action} {σ' : System} {v : Option ℤ} (h : TimedWait ok c ticks none m)
    (hv : m.sys.returned c act = v) (hadm : Admissible m.sys act) (hok : ok m act)
    (hs : m.sys.step act = .ok σ') : TimedWait ok c ticks v (m.next c act σ') := by
  rw [← hv]
  exact .step h hadm hok hs

section
variable {σ σ' : System} {a a' : Shape} {act : Action} {c : ThreadPtr} {made : List ThreadPtr}
  {gone : List Release}

/-- Only ticks move the clock. -/
theorem resched_tickCount {s : Scheduler} (next : Option ThreadPtr) :
    (s.resched next).tickCount = s.tickCount := by
  have hpreempt (prev : Option ThreadPtr) : (s.preempt prev).tickCount = s.tickCount := by
    unfold Scheduler.preempt
    split
    next => split <;> rfl
    next => rfl
  unfold Scheduler.resched
  split
  next => rfl
  next t =>
    split
    next => rfl
    next => exact hpreempt _

theorem StepCase.tickCount (h : StepCase σ a act σ' a' made gone) (hinv : Inv false σ a)
    (hadm : Admissible σ act) (ht : act ≠ .tick) :
    σ'.kernel.sched.tickCount = σ.kernel.sched.tickCount := by
  cases h with
  | rest => rfl
  | tick => exact absurd rfl ht
  | wake kind queue k hw =>
    obtain ⟨-, -, l, -, -, hskel, -⟩ := waitQueueWake_wf hinv.base.free hinv.base.wf hw
    have hfield := congrArg Scheduler.tickCount hskel
    exact hfield
  | thread call cond k control hh hstep => exact (hinv.stepOk hh hadm hstep).advance.tickCount
  | yield _ pc s _ _ hy =>
    obtain ⟨r, flag, -, rfl, hskel⟩ := hy
    have hfield := congrArg Scheduler.tickCount hskel
    exact (resched_tickCount _).trans hfield

/-- The clock and the count of elapsed ticks. -/
theorem clock_next {m : Moment} (hcase : StepCase m.sys a act σ' a' made gone)
    (hinv : Inv false m.sys a) (hadm : Admissible m.sys act) (hs : m.sys.step act = .ok σ') :
    (m.next c act σ').sys.kernel.sched.tickCount + m.elapsed ≤
      m.sys.kernel.sched.tickCount + (m.next c act σ').elapsed ∧
      m.elapsed ≤ (m.next c act σ').elapsed := by
  by_cases ht : act = .tick
  · have hcount : σ'.kernel.sched.tickCount = wrap64 (m.sys.kernel.sched.tickCount + 1) := by
      rw [ht] at hs
      exact (hinv.tick_thread hs).1
    have hwrap : wrap64 (m.sys.kernel.sched.tickCount + 1) ≤ m.sys.kernel.sched.tickCount + 1 :=
      Nat.mod_le _ _
    simp only [Moment.next, if_pos ht, hcount]
    omega
  · simp only [Moment.next, if_neg ht, hcase.tickCount hinv hadm ht]
    omega

/-- Once a clock that shows `now` has come to the deadline, the ticks are over. -/
def Moment.Due (m : Moment) (ticks deadline now : ℕ) : Prop :=
  ticks ≤ m.elapsed ∨ now + ticks ≤ deadline + m.elapsed

/-- What holds at the points of a timed wait. -/
def Moment.Waits (m : Moment) (ticks : ℕ) : Pc → Prop
  | .timeoutDeadline _ n => n = ticks ∧ 0 < ticks
  | .timeoutNow _ deadline | .timeoutYield _ deadline | .timeoutRemove _ deadline =>
      m.Due ticks deadline m.sys.kernel.sched.tickCount
  | .timeoutCheck _ deadline now =>
      m.Due ticks deadline now ∧ m.Due ticks deadline m.sys.kernel.sched.tickCount
  | _ => False

variable {m : Moment} {ticks : ℕ}

theorem Moment.Due.later {m' : Moment} {deadline now now' : ℕ} (h : m.Due ticks deadline now)
    (hclock : now' + m.elapsed ≤ now + m'.elapsed) (hle : m.elapsed ≤ m'.elapsed) :
    m'.Due ticks deadline now' := by
  unfold Moment.Due at *
  omega

theorem Moment.Waits.later {m' : Moment} {p : Pc} (h : m.Waits ticks p)
    (hclock : m'.sys.kernel.sched.tickCount + m.elapsed ≤
      m.sys.kernel.sched.tickCount + m'.elapsed) (hle : m.elapsed ≤ m'.elapsed) :
    m'.Waits ticks p := by
  cases p with
  | timeoutDeadline _ n => exact h
  | timeoutNow _ d | timeoutYield _ d | timeoutRemove _ d => exact Due.later h hclock hle
  | timeoutCheck _ d now =>
    exact ⟨Due.later h.1 (Nat.add_le_add_left hle now) hle, Due.later h.2 hclock hle⟩
  | entry | sleepMark _ | sleepYield | sleepReturn | queueSleepYield _ | queueSleepCheck _
  | waitCheck _ | waitYield _ | waitRemove _ | exitYield => exact h.elim

theorem finish_pc {k : Kernel} {control : Control} (hc : σ.kernel.sched.currentThread = some c)
    (hfin : σ.finish k control = .ok σ') : σ'.pc c = control.pc := by
  have hmove := movePc_self σ.pc c control
  rw [← hc] at hmove
  cases control with
  | yieldTo p =>
    obtain ⟨k', -, rfl⟩ := map_ok hfin
    exact hmove
  | goto p | ret v | spawned t =>
    obtain rfl := Except.ok.inj hfin
    exact hmove

/-- How a step of the waiter ends. -/
inductive WaiterStep (m : Moment) (c : ThreadPtr) (ticks : ℕ) (act : Action) (σ' : System) : Prop
  | goes : m.sys.returned c act = none → (m.next c act σ').Waits ticks (σ'.pc c) →
      WaiterStep m c ticks act σ'
  | returns (v : ℤ) : m.sys.returned c act = some v → σ'.pc c = .entry →
      (v = -etimedout → ticks ≤ (m.next c act σ').elapsed ∧
        (m.next c act σ').last = some false) →
      (v = 0 → (m.next c act σ').last = some true) → WaiterStep m c ticks act σ'

section
variable {call : Call} {cond : Bool} {k : Kernel} {control : Control}

theorem System.returned_own (hh : σ.halted = false) (hc : σ.kernel.sched.currentThread = some c)
    (hstep : threadStep σ.kernel (σ.pc c) call cond = .ok (k, control)) :
    σ.returned c (.thread call cond) = control.value := by
  simp only [System.returned, hc, hh, and_self, if_true, hstep]

/-- A step of the waiter that stays in the call. -/
theorem WaiterStep.moves {p : Pc} (hh : m.sys.halted = false)
    (hc : m.sys.kernel.sched.currentThread = some c)
    (hstep : threadStep m.sys.kernel (m.sys.pc c) call cond = .ok (k, control))
    (hfin : m.sys.finish k control = .ok σ') (hp : control = .goto p ∨ control = .yieldTo p)
    (hw : (m.next c (.thread call cond) σ').Waits ticks p) :
    WaiterStep m c ticks (.thread call cond) σ' := by
  have hpc := finish_pc hc hfin
  have hreturned := System.returned_own hh hc hstep
  rcases hp with rfl | rfl
  · exact .goes hreturned (by rw [hpc]; exact hw)
  · exact .goes hreturned (by rw [hpc]; exact hw)

/-- The critical section of the loop: the waiter looks at the condition and at the clock. -/
theorem check_step {q : QueuePtr} {d now : ℕ} (hh : m.sys.halted = false)
    (hc : m.sys.kernel.sched.currentThread = some c)
    (hpoint : m.sys.pc c = .timeoutCheck q d now)
    (hstep : threadStep m.sys.kernel (m.sys.pc c) call cond = .ok (k, control))
    (hfin : m.sys.finish k control = .ok σ') (hnow : m.Due ticks d now)
    (hlater : (m.next c (.thread call cond) σ').Due ticks d σ'.kernel.sched.tickCount) :
    WaiterStep m c ticks (.thread call cond) σ' := by
  have hpc := finish_pc hc hfin
  have hreturned := System.returned_own hh hc hstep
  have hlast : (m.next c (.thread call cond) σ').last = some cond := by
    simp only [Moment.next, System.evaluated, hc, hh, and_self, if_true, hpoint, Option.some_or]
  have hbody := hstep
  rw [hpoint, threadStep] at hbody
  replace hbody := withLock_body hbody
  cases timeoutSection_cases hbody with
  | returns v hv =>
    rcases hv with ⟨htrue, rfl⟩ | ⟨hfalse, hover, rfl⟩
    · exact .returns 0 hreturned hpc (by simp [etimedout]) fun _ => by rw [hlast, htrue]
    · refine .returns _ hreturned hpc (fun _ => ⟨?_, ?_⟩) (by simp [etimedout])
      · simp only [Moment.next, reduceCtorEq, if_false]
        unfold Moment.Due at hnow
        omega
      · rw [hlast, hfalse]
  | blocks => exact .moves hh hc hstep hfin (.inl rfl) hlater

end

/-- The waiter takes its next step. -/
theorem waiter_step (hinv : Inv false m.sys a) (hcase : StepCase m.sys a act σ' a' made gone)
    (hadm : Admissible m.sys act) (hown : m.sys.Own c act) (hs : m.sys.step act = .ok σ')
    (hw : m.Waits ticks (m.sys.pc c)) (hok : m.InTime c ticks act) :
    WaiterStep m c ticks act σ' := by
  have hlate := hok hown
  obtain ⟨hc, hh, call, cond, rfl⟩ := hown
  obtain ⟨k, control, hstep, hfin⟩ := System.step_own hh hc hs
  have hclock : σ'.kernel.sched.tickCount = m.sys.kernel.sched.tickCount :=
    hcase.tickCount hinv hadm (by simp)
  have hdue {d : ℕ} (h : m.Due ticks d m.sys.kernel.sched.tickCount) :
      (m.next c (.thread call cond) σ').Due ticks d
        (m.next c (.thread call cond) σ').sys.kernel.sched.tickCount := by
    simp only [Moment.next, hclock]
    exact h
  have hmoves (p : Pc) (hp : control = .goto p ∨ control = .yieldTo p)
      (hwait : (m.next c (.thread call cond) σ').Waits ticks p) :
      WaiterStep m c ticks (.thread call cond) σ' := .moves hh hc hstep hfin hp hwait
  have hpointed := hstep
  cases hpoint : m.sys.pc c with
  | timeoutDeadline q n =>
    rw [hpoint] at hw hpointed
    obtain ⟨rfl, -⟩ := hw
    obtain ⟨-, rfl⟩ := Prod.mk.inj (Except.ok.inj hpointed)
    refine hmoves _ (.inl rfl) (hdue ?_)
    rcases hlate ⟨q, hpoint⟩ with hlt | hle
    · rw [wrap64, Nat.mod_eq_of_lt hlt]
      exact .inr (Nat.le_add_right _ _)
    · exact .inl hle
  | timeoutNow q d =>
    rw [hpoint] at hw hpointed
    obtain ⟨-, rfl⟩ := Prod.mk.inj (Except.ok.inj hpointed)
    exact hmoves _ (.inl rfl) ⟨hw, hdue hw⟩
  | timeoutYield q d =>
    rw [hpoint] at hw hpointed
    obtain ⟨-, rfl⟩ := Prod.mk.inj (Except.ok.inj hpointed)
    exact hmoves _ (.inr rfl) (hdue hw)
  | timeoutRemove q d =>
    rw [hpoint] at hw hpointed
    rw [threadStep] at hpointed
    obtain ⟨r, -, hpair⟩ := map_ok (withLock_body hpointed)
    obtain ⟨-, rfl⟩ := Prod.mk.inj hpair
    exact hmoves _ (.inl rfl) (hdue hw)
  | timeoutCheck q d now =>
    rw [hpoint] at hw
    exact check_step hh hc hpoint hstep hfin hw.1 (hdue hw.2)
  | entry | sleepMark _ | sleepYield | sleepReturn | queueSleepYield _ | queueSleepCheck _
  | waitCheck _ | waitYield _ | waitRemove _ | exitYield =>
    rw [hpoint] at hw
    exact hw.elim

/-- The first step of the call. -/
theorem caller_step {queue : Option QueuePtr} {hasCondition cond : Bool} (hh : σ.halted = false)
    (hc : σ.kernel.sched.currentThread = some c) (hentry : σ.pc c = .entry)
    (hs : σ.step (.thread (.waitTimeout queue hasCondition ticks) cond) = .ok σ') :
    WaiterStep ⟨σ, 0, none⟩ c ticks (.thread (.waitTimeout queue hasCondition ticks) cond) σ' := by
  obtain ⟨k, control, hstep, hfin⟩ := System.step_own hh hc hs
  have hpc := finish_pc hc hfin
  have hreturned := System.returned_own hh hc hstep
  have hinvalid (he : control = .ret (-einval)) : WaiterStep ⟨σ, 0, none⟩ c ticks
      (.thread (.waitTimeout queue hasCondition ticks) cond) σ' := by
    subst he
    exact .returns _ hreturned hpc (by simp [einval, etimedout]) (by simp [einval])
  rw [hentry, threadStep] at hstep
  cases queue with
  | none =>
    obtain ⟨-, rfl⟩ := Prod.mk.inj (Except.ok.inj hstep)
    exact hinvalid rfl
  | some q =>
    simp only [beginCall] at hstep
    split at hstep
    next =>
      obtain ⟨-, rfl⟩ := Prod.mk.inj (Except.ok.inj hstep)
      exact hinvalid rfl
    next hvalid =>
      obtain ⟨-, -, hstep⟩ := bind_ok hstep
      obtain rfl : hasCondition = true := by
        simpa using fun hf => hvalid (.inl hf)
      have hcond : σ.evaluated c (.thread (.waitTimeout (some q) true ticks) cond) = some cond := by
        simp only [System.evaluated, hc, hh, and_self, if_true, hentry]
      have hlast (v : Bool) (hv : cond = v) : ((Moment.mk σ 0 none).next c
          (.thread (.waitTimeout (some q) true ticks) cond) σ').last = some v := by
        rw [Moment.next, hcond, hv]
        rfl
      split at hstep
      next htrue =>
        obtain ⟨-, rfl⟩ := Prod.mk.inj (Except.ok.inj hstep)
        exact .returns 0 hreturned hpc (by simp [etimedout]) fun _ => hlast true htrue
      next hfalse =>
        split at hstep
        next hzero =>
          obtain ⟨-, rfl⟩ := Prod.mk.inj (Except.ok.inj hstep)
          refine .returns _ hreturned hpc (fun _ => ⟨?_, ?_⟩) (by simp [etimedout])
          · rw [hzero]
            exact Nat.zero_le _
          · exact hlast false (Bool.eq_false_of_not_eq_true hfalse)
        next hpos =>
          obtain ⟨-, rfl⟩ := Prod.mk.inj (Except.ok.inj hstep)
          refine .goes hreturned ?_
          rw [hpc]
          exact ⟨rfl, Nat.pos_of_ne_zero hpos⟩

/-- A step that is not the waiter's. -/
theorem bystander_step (hinv : Inv false m.sys a) (hcase : StepCase m.sys a act σ' a' made gone)
    (hmade : c ∉ made) (hadm : Admissible m.sys act) (hown : ¬ m.sys.Own c act)
    (hs : m.sys.step act = .ok σ') (hw : m.Waits ticks (m.sys.pc c)) :
    WaiterStep m c ticks act σ' := by
  have hnone : m.sys.returned c act = none := by
    cases act with
    | thread call cond =>
      rw [System.returned, if_neg fun h => hown ⟨h.1, h.2, call, cond, rfl⟩]
    | tick | wake _ _ | irqExit => rfl
  refine .goes hnone ?_
  rcases hcase.moves hmade with ⟨call, cond, he, hh, hc, -⟩ | ⟨he, -⟩
  · exact absurd ⟨hc, hh, call, cond, he⟩ hown
  · rw [he]
    obtain ⟨hclock, hle⟩ := clock_next (c := c) hcase hinv hadm hs
    exact hw.later hclock hle

/-- What is known of a call that has returned `r`. -/
def Moment.Stands (m : Moment) (c : ThreadPtr) (ticks : ℕ) : Option ℤ → Prop
  | none => m.Waits ticks (m.sys.pc c)
  | some v => m.Honours c ticks v

theorem WaiterStep.stands (h : WaiterStep m c ticks act σ') (hinv : Inv false σ' a')
    (hm : c ∈ a'.run) : (m.next c act σ').Stands c ticks (m.sys.returned c act) := by
  cases h with
  | goes hnone hw =>
    rw [hnone]
    exact hw
  | returns v hv hentry htimeout hsuccess =>
    have hok := hinv.base.wf.threads c hm
    have hplain := hinv.plain hm (.inl hentry)
    rw [hv]
    refine ⟨htimeout, hsuccess, hplain.unlinked, ?_⟩
    by_contra hwake
    rcases hplain.active with ha | ha <;> rw [hok.wake hwake] at ha <;> cases ha

theorem Moment.Waits.not_zombie (h : m.Waits ticks (m.sys.pc c)) (hinv : Inv false m.sys a)
    (hm : c ∈ a.run) : (m.sys.kernel.sched.thread c).state ≠ .zombie := by
  intro hz
  rw [(hinv.base.wf.threads c hm).fits.zombie_point hz] at h
  exact h.elim

theorem TimedWait.stands {r : Option ℤ} (h : TimedWait (Moment.InTime c ticks) c ticks r m) :
    ∃ a, Inv false m.sys a ∧ c ∈ a.run ∧ m.Stands c ticks r := by
  induction h with
  | @call σ σ' queue hasCondition cond act hact hr hown hpc hs =>
    subst hact
    obtain ⟨a, hinv⟩ := reachable_inv false hr (by simp)
    have hm := hinv.base.wf.current c hown.1
    have hadm : Admissible σ (.thread (.waitTimeout queue hasCondition ticks) cond) := trivial
    obtain ⟨a', hinv', hcase⟩ := hinv.step_cases hadm hs
    have hm' := hcase.stays hinv hm (hinv.plain hm (.inl hpc)).not_zombie
    exact ⟨a', hinv', hm', (caller_step hown.2.1 hown.1 hpc hs).stands hinv' hm'⟩
  | @step m σ' act _ hadm hok hs ih =>
    obtain ⟨a, hinv, hm, hw⟩ := ih
    replace hw : m.Waits ticks (m.sys.pc c) := hw
    obtain ⟨a', hinv', hcase⟩ := hinv.step_cases hadm hs
    have hm' := hcase.stays hinv hm (hw.not_zombie hinv hm)
    refine ⟨a', hinv', hm', WaiterStep.stands ?_ hinv' hm'⟩
    by_cases hown : m.sys.Own c act
    · exact waiter_step hinv hcase hadm hown hs hw hok
    · exact bystander_step hinv hcase (fun hmem => hinv'.spawned_notMem hcase c hmem hm) hadm hown
        hs hw

theorem System.step_of_own {call : Call} {cond : Bool} {k : Kernel} {control : Control}
    (hh : σ.halted = false) (hc : σ.kernel.sched.currentThread = some c)
    (hstep : threadStep σ.kernel (σ.pc c) call cond = .ok (k, control))
    (hny : ∀ p, control ≠ .yieldTo p) :
    σ.step (.thread call cond) = .ok ⟨k, movePc σ.pc (some c) control⟩ := by
  have hpoint : σ.point = σ.pc c := by simp [System.point, hc]
  simp only [System.step, hh, Bool.false_eq_true, ↓reduceIte, hpoint, hstep, Except.bind]
  cases control with
  | yieldTo p => exact absurd rfl (hny p)
  | goto p | ret v | spawned t => simp only [System.finish, hc]

/-- A deadline that wraps is in the past: three steps of the waiter later, and without a tick, the
call returns if the condition is false. -/
theorem wrapped_returns {q : QueuePtr} (hinv : Inv false m.sys a)
    (hc : m.sys.kernel.sched.currentThread = some c) (hh : m.sys.halted = false)
    (hpc : m.sys.pc c = .timeoutDeadline q ticks) (hticks : ticks < 2 ^ 64)
    (hwrap : 2 ^ 64 ≤ m.sys.kernel.sched.tickCount + ticks) :
    ∃ m' σ', Relation.ReflTransGen (Moment.Leads c) m m' ∧
      m'.sys.step (.thread .yield false) = .ok σ' ∧
      m'.sys.returned c (.thread .yield false) = some (-etimedout) ∧
      (m'.next c (.thread .yield false) σ').elapsed = m.elapsed := by
  obtain ⟨⟨k, pc⟩, elapsed, last⟩ := m
  simp only at hc hpc hwrap hinv hh
  have hadm (σ : System) : Admissible σ (.thread .yield false) := trivial
  have hpast : wrap64 (k.sched.tickCount + ticks) ≤ k.sched.tickCount := by
    rw [wrap64]
    omega
  set d := wrap64 (k.sched.tickCount + ticks) with hd
  -- The deadline, the clock, and the critical section.
  let p₁ := movePc pc (some c) (.goto (.timeoutNow q d))
  let p₂ := movePc p₁ (some c) (.goto (.timeoutCheck q d k.sched.tickCount))
  have hp₁ : p₁ c = .timeoutNow q d := movePc_self _ _ _
  have hp₂ : p₂ c = .timeoutCheck q d k.sched.tickCount := movePc_self _ _ _
  have hs₁ : System.step ⟨k, pc⟩ (.thread .yield false) = .ok ⟨k, p₁⟩ :=
    System.step_of_own hh hc (by simp only [hpc]; rfl) (by simp)
  have hs₂ : System.step ⟨k, p₁⟩ (.thread .yield false) = .ok ⟨k, p₂⟩ :=
    System.step_of_own hh hc (by simp only [hp₁]; rfl) (by simp)
  have hsection : threadStep k (p₂ c) .yield false = .ok
      (⟨k.sched.modifyThread c fun x => { x with wakeTick := 0 }, k.locks⟩, .ret (-etimedout)) := by
    simp only [hp₂, threadStep, withLock_eq (hinv.base.free.locked _), timeoutSection,
      Bool.false_eq_true, if_false, if_pos hpast, clearWakeTick, hc, Except.map]
  have hs₃ := System.step_of_own (σ := ⟨k, p₂⟩) hh hc hsection (by simp)
  let m₁ := (Moment.mk ⟨k, pc⟩ elapsed last).next c (.thread .yield false) ⟨k, p₁⟩
  have hl₁ : Moment.Leads c ⟨⟨k, pc⟩, elapsed, last⟩ m₁ := ⟨_, _, hadm _, hs₁, rfl⟩
  have hl₂ : Moment.Leads c m₁ (m₁.next c (.thread .yield false) ⟨k, p₂⟩) :=
    ⟨_, _, hadm _, hs₂, rfl⟩
  refine ⟨_, _, (Relation.ReflTransGen.single hl₁).tail hl₂, hs₃, ?_, rfl⟩
  have hrun : k.sched.currentThread = some c ∧ System.halted ⟨k, p₂⟩ = false := ⟨hc, hh⟩
  simp only [Moment.next, System.returned, if_pos hrun, hsection]
  rfl

end

/-- In every run of `wait_queue_wait_timeout` whose deadline does not wrap, the call returns
`-ETIMEDOUT` only after its ticks and with a false condition, 0 only with a true one, and the
thread is on no queue and has no wake tick then. A deadline that wraps makes the call return too
early in some run. -/
theorem timed_waits_honoured (c : ThreadPtr) (ticks : ℕ) (hticks : ticks < 2 ^ 64) :
    (∀ v m, TimedWait (Moment.InTime c ticks) c ticks (some v) m → m.Honours c ticks v) ∧
    ∀ m act, TimedWait (Moment.InTime c ticks) c ticks none m → ¬ m.InTime c ticks act →
      ∃ m' act' σ', Relation.ReflTransGen (Moment.Leads c) m m' ∧
        m'.sys.step act' = .ok σ' ∧ m'.sys.returned c act' = some (-etimedout) ∧
        ¬ (m'.next c act' σ').Honours c ticks (-etimedout) := by
  refine ⟨fun v m h => ?_, fun m act h hlate => ?_⟩
  · obtain ⟨-, -, -, hhonours⟩ := h.stands
    exact hhonours
  · obtain ⟨a, hinv, -⟩ := h.stands
    simp only [Moment.InTime, Classical.not_imp, not_or, not_lt, not_le] at hlate
    obtain ⟨⟨hc, hh, -⟩, ⟨q, hpc⟩, hwrap, hearly⟩ := hlate
    obtain ⟨m', σ', hreach, hstep, hreturned, helapsed⟩ :=
      wrapped_returns hinv hc hh hpc hticks hwrap
    refine ⟨m', _, σ', hreach, hstep, hreturned, fun hhonours => ?_⟩
    have hticks := (hhonours.timeout rfl).1
    omega

/-- Thread 2 waits for one tick; the condition is false when it calls and true when it looks again. -/
theorem timed_waits_honoured_one_tick : ∃ m, TimedWait (Moment.InTime 2 1) 2 1 (some 0) m ∧
    m.Honours 2 1 0 := by
  let yields : Action := .thread .yield false
  let call : Action := .thread (.waitTimeout (some 0) true 1) false
  let sees : Action := .thread .yield true
  have hboot : Reachable (fun _ _ => True) (.boot [1, 2] 1) :=
    boot_reachable (by decide) (by decide)
  let info (σ : System) (act : Action) := (σ.kernel.sched.currentThread, σ.halted, σ.pc 2,
    σ.kernel.sched.tickCount, σ.returned 2 act)
  have hrun : (((System.boot [1, 2] 1).step yields).bind fun σ₁ => (σ₁.step call).bind fun σ₂ =>
      (σ₂.step yields).bind fun σ₃ => (σ₃.step yields).bind fun σ₄ => (σ₄.step sees).map fun _ =>
        (info σ₁ call, info σ₂ yields, info σ₃ yields, info σ₄ sees)) =
      .ok ((some 2, false, .entry, 0, none), (some 2, false, .timeoutDeadline 0 1, 0, none),
        (some 2, false, .timeoutNow 0 1, 0, none),
        (some 2, false, .timeoutCheck 0 1 0, 0, some 0)) := rfl
  obtain ⟨σ₁, h₁, hrun⟩ := bind_ok hrun
  obtain ⟨σ₂, h₂, hrun⟩ := bind_ok hrun
  obtain ⟨σ₃, h₃, hrun⟩ := bind_ok hrun
  obtain ⟨σ₄, h₄, hrun⟩ := bind_ok hrun
  obtain ⟨σ₅, h₅, hinfo⟩ := map_ok hrun
  simp only [info, Prod.mk.injEq] at hinfo
  obtain ⟨⟨hc₁, hh₁, hp₁, -, hv₁⟩, ⟨-, -, -, ht₂, hv₂⟩, ⟨-, -, hp₃, -, hv₃⟩, -, -, hp₄, -, hv₄⟩ :=
    hinfo
  have hr₁ : Reachable (fun _ _ => True) σ₁ := .next hboot (a := yields) ⟨trivial, trivial⟩ h₁
  have hadm (σ : System) (cond : Bool) : Admissible σ (.thread .yield cond) := trivial
  -- The deadline is computed once.
  have hw₂ : TimedWait (Moment.InTime 2 1) 2 1 (σ₁.returned 2 call) _ :=
    .call rfl hr₁ ⟨hc₁, hh₁, _, _, rfl⟩ hp₁ h₂
  rw [hv₁] at hw₂
  have hw₃ := hw₂.next hv₂ (hadm _ _) (fun _ _ => .inl (by simp [Moment.next, ht₂])) h₃
  have hw₄ := hw₃.next hv₃ (hadm _ _) (fun _ h => by simp [Moment.next, hp₃] at h) h₄
  have hw₅ := hw₄.next hv₄ (hadm _ _) (fun _ h => by simp [Moment.next, hp₄] at h) h₅
  exact ⟨_, hw₅, (timed_waits_honoured 2 1 (by decide)).1 _ _ hw₅⟩

/-- One tick after boot a wait of `2 ^ 64 - 1` ticks has the deadline 0 and returns at once. -/
theorem wrapped_deadline_returns_early : ∃ m,
    TimedWait (fun _ _ => True) 2 (2 ^ 64 - 1) (some (-etimedout)) m ∧ m.elapsed = 0 ∧
    ¬ m.Honours 2 (2 ^ 64 - 1) (-etimedout) := by
  let yields : Action := .thread .yield false
  let call : Action := .thread (.waitTimeout (some 0) true (2 ^ 64 - 1)) false
  have hboot : Reachable (fun _ _ => True) (.boot [1, 2] 1) :=
    boot_reachable (by decide) (by decide)
  let info (σ : System) (act : Action) := (σ.kernel.sched.currentThread, σ.halted, σ.pc 2,
    σ.returned 2 act)
  have hrun : (((System.boot [1, 2] 1).step .tick).bind fun σ₀ => (σ₀.step yields).bind fun σ₁ =>
      (σ₁.step call).bind fun σ₂ => (σ₂.step yields).bind fun σ₃ =>
      (σ₃.step yields).bind fun σ₄ => (σ₄.step yields).map fun _ =>
        (info σ₁ call, σ₂.returned 2 yields, σ₃.returned 2 yields, σ₄.returned 2 yields)) =
      .ok ((some 2, false, .entry, none), none, none, some (-etimedout)) := rfl
  obtain ⟨σ₀, h₀, hrun⟩ := bind_ok hrun
  obtain ⟨σ₁, h₁, hrun⟩ := bind_ok hrun
  obtain ⟨σ₂, h₂, hrun⟩ := bind_ok hrun
  obtain ⟨σ₃, h₃, hrun⟩ := bind_ok hrun
  obtain ⟨σ₄, h₄, hrun⟩ := bind_ok hrun
  obtain ⟨σ₅, h₅, hinfo⟩ := map_ok hrun
  simp only [info, Prod.mk.injEq] at hinfo
  obtain ⟨⟨hc₁, hh₁, hp₁, hv₁⟩, hv₂, hv₃, hv₄⟩ := hinfo
  have hr₀ : Reachable (fun _ _ => True) σ₀ := .next hboot (a := .tick) ⟨trivial, trivial⟩ h₀
  have hr₁ : Reachable (fun _ _ => True) σ₁ := .next hr₀ (a := yields) ⟨trivial, trivial⟩ h₁
  have hadm (σ : System) : Admissible σ yields := trivial
  have hw₂ : TimedWait (fun _ _ => True) 2 (2 ^ 64 - 1) (σ₁.returned 2 call) _ :=
    .call rfl hr₁ ⟨hc₁, hh₁, _, _, rfl⟩ hp₁ h₂
  rw [hv₁] at hw₂
  have hw₃ := hw₂.next hv₂ (hadm _) trivial h₃
  have hw₄ := hw₃.next hv₃ (hadm _) trivial h₄
  have hw₅ := hw₄.next hv₄ (hadm _) trivial h₅
  refine ⟨_, hw₅, rfl, fun hhonours => ?_⟩
  have hticks : 2 ^ 64 - 1 ≤ 0 := (hhonours.timeout rfl).1
  omega

end Tianole.Sched
