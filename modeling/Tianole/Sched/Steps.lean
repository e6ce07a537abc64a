import Tianole.Lib.Runs
import Tianole.Sched.Invariant

/-! One step of a thread keeps the scheduler invariant. -/
namespace Tianole.Sched
open Runs

/-- The program points after a step of the current thread. -/
def movePc (pc : ThreadPtr → Pc) (current : Option ThreadPtr) (control : Control) :
    ThreadPtr → Pc :=
  let pc := match current with
    | some c => Function.update pc c control.pc
    | none => pc
  match control with
  | .spawned (some t) => Function.update pc t .entry
  | _ => pc

/-- What `kmalloc` promises for a creation: a fresh object. -/
def Fresh (s : Scheduler) : Call → Prop
  | .create _ (some t) _ => s.allocated t = false
  | _ => True

instance (s : Scheduler) (call : Call) : Decidable (Fresh s call) := by
  unfold Fresh; split <;> infer_instance

/-- What the current thread leaves alone: the switching state, and the states of threads in
so far as it makes nobody running and does not make itself ready. -/
structure Advance (s s' : Scheduler) : Prop where
  current : s'.currentThread = s.currentThread
  idle : s'.idleThread = s.idleThread
  scheduleLocked : s'.scheduleLocked = s.scheduleLocked
  needResched : s'.needResched = s.needResched
  irqDepth : s'.irqDepth = s.irqDepth
  tickCount : s'.tickCount = s.tickCount
  running : ∀ t, (s'.thread t).state = .running → (s.thread t).state = .running
  ready : ∀ c, s.currentThread = some c → (s'.thread c).state = .ready →
    (s.thread c).state = .ready

section
variable {s s' : Scheduler} {a b : Shape} {pc : ThreadPtr → Pc} {t c : ThreadPtr} {q : QueuePtr}
  {p : Pc} {f : Thread → Thread}

theorem Advance.refl (s : Scheduler) : Advance s s :=
  ⟨rfl, rfl, rfl, rfl, rfl, rfl, fun _ h => h, fun _ _ h => h⟩

theorem modifyThread_modifyThread (f g : Thread → Thread) :
    (s.modifyThread t f).modifyThread t g = s.modifyThread t fun x => g (f x) := by
  simp [Scheduler.modifyThread]

/-- A step that touches only the current thread, and moves it to the point `p`. -/
theorem Wf.move (h : Wf s pc a) (hi : s.idleThread ≠ some c) (hrep : Represents s' b)
    (hrun : b.run = a.run) (hskel : s'.skeleton = s.skeleton.modifyThread c f)
    (hok : ThreadOk p (f (s.skeleton.thread c))) : Wf s' (Function.update pc c p) b := by
  have hcur : s'.currentThread = s.currentThread := by
    have := congrArg Scheduler.currentThread hskel
    exact this
  have hidle : s'.idleThread = s.idleThread := by
    have := congrArg Scheduler.idleThread hskel
    exact this
  refine ⟨hrep, fun u hu => ?_, by rw [hcur, hrun]; exact h.current, ?_⟩
  · rw [← threadOk_skeleton, hskel, Scheduler.modifyThread_thread]
    by_cases hu' : u = c
    · subst hu'
      simpa using hok
    · rw [if_neg hu', Function.update_of_ne hu']
      exact threadOk_skeleton.mpr (h.threads u (hrun ▸ hu))
  · obtain ⟨i, hm, hii, hpc⟩ := h.idle
    have hic : i ≠ c := by rintro rfl; exact hi hii
    exact ⟨i, hrun ▸ hm, hidle.trans hii, by rw [Function.update_of_ne hic]; exact hpc⟩

theorem Wf.stay (h : Wf s pc a) (hi : s.idleThread ≠ some c) (hok : ThreadOk p (s.thread c)) :
    Wf s (Function.update pc c p) a := by
  refine h.move (f := fun x => x) hi h.rep rfl ?_ (threadOk_skeleton.mpr hok)
  simp only [Scheduler.modifyThread, Function.update_eq_self]

theorem advance_of_skeleton (hskel : s'.skeleton = s.skeleton.modifyThread c f)
    (hrun : (f (s.skeleton.thread c)).state = .running → (s.thread c).state = .running)
    (hready : (f (s.skeleton.thread c)).state = .ready → (s.thread c).state = .ready) :
    Advance s s' := by
  have hstate (u : ThreadPtr) : (s'.thread u).state =
      if u = c then (f (s.skeleton.thread c)).state else (s.thread u).state := by
    rw [← skeleton_state, hskel, Scheduler.modifyThread_thread]
    split <;> rfl
  have hfield {β : Type} (g : Scheduler → β) : g s'.skeleton = g (s.skeleton.modifyThread c f) :=
    congrArg g hskel
  refine ⟨hfield Scheduler.currentThread, hfield Scheduler.idleThread,
    hfield Scheduler.scheduleLocked, hfield Scheduler.needResched, hfield Scheduler.irqDepth,
    hfield Scheduler.tickCount, fun u hu => ?_, fun u _ hu => ?_⟩
  · rw [hstate] at hu
    split at hu
    next he => rw [he]; exact hrun hu
    next => exact hu
  · rw [hstate] at hu
    split at hu
    next he => rw [he]; exact hready hu
    next => exact hu

/-! ### Critical sections and setters -/

theorem withLock_ok {α : Type} {k k' : Kernel} {lock : LockId} {x : α} (hf : k.locks.Free)
    {body : Scheduler → Except Stop (Scheduler × α)} (h : withLock k lock body = .ok (k', x)) :
    body k.sched = .ok (k'.sched, x) ∧ k'.locks = k.locks := by
  rw [withLock_eq (hf.locked lock)] at h
  obtain ⟨⟨s, y⟩, hb, he⟩ := map_ok h
  obtain ⟨rfl, rfl⟩ := Prod.mk.inj he
  exact ⟨hb, rfl⟩

theorem withLock_error {α : Type} {k : Kernel} {lock : LockId} {e : Stop} (hf : k.locks.Free)
    {body : Scheduler → Except Stop (Scheduler × α)} (h : withLock k lock body = .error e) :
    body k.sched = .error e := by
  rw [withLock_eq (hf.locked lock)] at h
  exact map_error h

theorem withLock_body {α : Type} {k k' : Kernel} {lock : LockId} {x : α}
    {body : Scheduler → Except Stop (Scheduler × α)} (h : withLock k lock body = .ok (k', x)) :
    body k.sched = .ok (k'.sched, x) := by
  obtain ⟨_, -, h⟩ := bind_ok h
  obtain ⟨⟨s, y⟩, hb, h⟩ := bind_ok h
  obtain ⟨_, -, h⟩ := bind_ok h
  obtain ⟨rfl, rfl⟩ := Prod.mk.inj (Except.ok.inj h)
  exact hb

theorem threadSetWith_ok {state : ThreadState} {wake : ℕ → ℕ}
    (h : threadSetWith s (some t) state wake = .ok s') :
    threadStateTransitionIsValid (s.thread t).state state = true ∧
      s' = s.withState t state (wake (s.thread t).wakeTick) := by
  rw [threadSetWith_some] at h
  split at h
  next hv => exact ⟨hv, (Except.ok.inj h).symm⟩
  next => cases h

theorem skeleton_withState_modify (state : ThreadState) (wake : ℕ) :
    (s.withState t state wake).skeleton =
      s.skeleton.modifyThread t fun x => { x with state := state, wakeTick := wake } :=
  skeleton_withState s t state wake

/-! ### The blocking sections -/

/-- A thread at a point outside every wait. -/
structure Plain (x : Thread) : Prop where
  unlinked : x.waitQueue = none
  active : Active x

/-- The shape after `t` has joined the queue `q`. -/
def Shape.join (a : Shape) (q : QueuePtr) (t : ThreadPtr) : Shape :=
  { a with wait := Function.update a.wait q (a.wait q ++ [t]) }

/-- The shape after `t` has left the queue `q`. -/
def Shape.leave (a : Shape) (q : QueuePtr) (t : ThreadPtr) : Shape :=
  { a with wait := Function.update a.wait q ((a.wait q).erase t) }

/-- Marking the current thread without touching a wait queue. -/
theorem setState_wf (h : Wf s pc a) (hc : s.currentThread = some c)
    (hi : s.idleThread ≠ some c) {state : ThreadState} {wake : ℕ → ℕ}
    (hs : threadSetWith s s.currentThread state wake = .ok s') (hr : state ≠ .running)
    (hr' : state ≠ .ready)
    (hok : ThreadOk p { s.thread c with state := state, wakeTick := wake (s.thread c).wakeTick }) :
    Wf s' (Function.update pc c p) a ∧ Advance s s' := by
  rw [hc] at hs
  obtain ⟨-, rfl⟩ := threadSetWith_ok hs
  have hskel := skeleton_withState_modify (s := s) (t := c) state (wake (s.thread c).wakeTick)
  refine ⟨h.move hi (h.rep.withState _ _ _) rfl hskel ?_, advance_of_skeleton hskel ?_ ?_⟩
  · exact ⟨hok.fits, hok.wake, hok.stackBase, hok.stackSize⟩
  · exact fun he => absurd he hr
  · exact fun he => absurd he hr'

/-! What the sections do to the lists, and to the current thread beside its links. -/

theorem enqueueCurrent_spec (h : Represents s a) (hc : s.currentThread = some c) (hm : c ∈ a.run)
    (ho : (s.thread c).waitQueue = none) (hs : enqueueCurrent s q = .ok s') :
    Represents s' (a.join q c) ∧
      s'.skeleton = s.skeleton.modifyThread c fun x => { x with waitQueue := some q } := by
  obtain ⟨s₁, hok, hrep, hskel⟩ := waitQueueEnqueueLocked_eq (q := q) h hm ho
  rw [enqueueCurrent, hc] at hs
  obtain rfl := Except.ok.inj (hok.symm.trans hs)
  exact ⟨hrep, hskel⟩

theorem blockWaiting_spec (h : Represents s a) (hc : s.currentThread = some c) (hm : c ∈ a.run)
    (ho : (s.thread c).waitQueue = none) (hs : blockWaiting s q = .ok s') :
    Represents s' (a.join q c) ∧ s'.skeleton = s.skeleton.modifyThread c fun x =>
      { x with waitQueue := some q, state := .waiting, wakeTick := 0 } := by
  obtain ⟨s₁, hen, hset⟩ := bind_ok hs
  obtain ⟨hrep, hskel⟩ := enqueueCurrent_spec h hc hm ho hen
  have hcur : s₁.currentThread = some c := (congrArg Scheduler.currentThread hskel).trans hc
  rw [threadSetWaiting, hcur] at hset
  obtain ⟨-, rfl⟩ := threadSetWith_ok hset
  refine ⟨hrep.withState _ _ _, ?_⟩
  rw [skeleton_withState, hskel]
  exact modifyThread_modifyThread _ _

theorem clearWakeTick_spec (h : Represents s a) (hc : s.currentThread = some c)
    (hs : clearWakeTick s = .ok s') : Represents s' a ∧
      s'.skeleton = s.skeleton.modifyThread c fun x => { x with wakeTick := 0 } := by
  rw [clearWakeTick, hc] at hs
  obtain rfl := Except.ok.inj hs
  exact ⟨h.withState c (s.thread c).state 0, skeleton_modifyThread s c fun _ => rfl⟩

/-- What the section of `wait_queue_wait_timeout` does if it does not panic. -/
inductive TimeoutStep (s : Scheduler) (q : QueuePtr) (deadline now : ℕ) (cond : Bool) :
    Scheduler → Control → Prop
  | returns {s' : Scheduler} (v : ℤ) :
      cond = true ∧ v = 0 ∨ cond = false ∧ deadline ≤ now ∧ v = -etimedout →
      clearWakeTick s = .ok s' → TimeoutStep s q deadline now cond s' (.ret v)
  | blocks {s₁ s' : Scheduler} : cond = false → now < deadline →
      threadSetSleeping s s.currentThread deadline = .ok s₁ → enqueueCurrent s₁ q = .ok s' →
      TimeoutStep s q deadline now cond s' (.goto (.timeoutYield q deadline))

theorem timeoutSection_cases {deadline now : ℕ} {cond : Bool} {control : Control}
    (hs : timeoutSection s q deadline now cond = .ok (s', control)) :
    TimeoutStep s q deadline now cond s' control := by
  unfold timeoutSection at hs
  split at hs
  next hcond =>
    obtain ⟨s₁, hclear, hpair⟩ := map_ok hs
    obtain ⟨rfl, rfl⟩ := Prod.mk.inj hpair
    exact .returns 0 (.inl ⟨hcond, rfl⟩) hclear
  next hcond =>
    have hfalse : cond = false := Bool.eq_false_of_not_eq_true hcond
    split at hs
    next hover =>
      obtain ⟨s₁, hclear, hpair⟩ := map_ok hs
      obtain ⟨rfl, rfl⟩ := Prod.mk.inj hpair
      exact .returns _ (.inr ⟨hfalse, hover, rfl⟩) hclear
    next hearly =>
      obtain ⟨s₁, hset, hs⟩ := bind_ok hs
      obtain ⟨s₂, hen, hs⟩ := bind_ok hs
      obtain ⟨rfl, rfl⟩ := Prod.mk.inj (Except.ok.inj hs)
      exact .blocks hfalse (Nat.lt_of_not_le hearly) hset hen

theorem sleepEnqueue_spec {s₁ : Scheduler} {deadline : ℕ} (h : Represents s a)
    (hc : s.currentThread = some c) (hm : c ∈ a.run) (ho : (s.thread c).waitQueue = none)
    (hset : threadSetSleeping s s.currentThread deadline = .ok s₁)
    (hen : enqueueCurrent s₁ q = .ok s') :
    Represents s' (a.join q c) ∧ s'.skeleton = s.skeleton.modifyThread c fun x =>
      { x with state := .sleeping, wakeTick := deadline, waitQueue := some q } := by
  rw [threadSetSleeping, hc] at hset
  obtain ⟨-, rfl⟩ := threadSetWith_ok hset
  obtain ⟨hrep, hskel⟩ := enqueueCurrent_spec (h.withState c .sleeping deadline) hc hm
    (by rw [withState_waitQueue]; exact ho) hen
  refine ⟨hrep, ?_⟩
  rw [hskel, skeleton_withState]
  exact modifyThread_modifyThread _ _

/-- `wait_queue_sleep` and `wait_queue_wait` link the thread and mark it waiting. -/
theorem blockWaiting_wf (h : Wf s pc a) (hc : s.currentThread = some c)
    (hi : s.idleThread ≠ some c) (hplain : Plain (s.thread c)) (hb : blockWaiting s q = .ok s')
    (hp : p = .queueSleepYield q ∨ p = .waitYield q) :
    Wf s' (Function.update pc c p) (a.join q c) ∧ Advance s s' := by
  have hm := h.current c hc
  have hx := h.threads c hm
  obtain ⟨hrep, hskel⟩ := blockWaiting_spec h.rep hc hm hplain.unlinked hb
  refine ⟨h.move hi hrep rfl hskel ?_, advance_of_skeleton hskel (by simp) (by simp)⟩
  refine ⟨?_, fun hw => absurd rfl hw, hx.stackBase, hx.stackSize⟩
  rcases hp with rfl | rfl <;> exact .inr ⟨rfl, rfl⟩

/-- The section of `wait_queue_wait_timeout`: return, or link the thread and let it sleep. -/
theorem timeoutSection_wf {deadline now : ℕ} {cond : Bool} {control : Control} (h : Wf s pc a)
    (hc : s.currentThread = some c) (hi : s.idleThread ≠ some c) (hplain : Plain (s.thread c))
    (hs : timeoutSection s q deadline now cond = .ok (s', control)) :
    (∃ a', a'.run = a.run ∧ Wf s' (Function.update pc c control.pc) a') ∧ Advance s s' ∧
      ¬ control.pc.resumes ∧ (∀ t, control ≠ .spawned t) ∧ ∀ p, control ≠ .yieldTo p := by
  have hm := h.current c hc
  have hx := h.threads c hm
  cases timeoutSection_cases hs with
  | returns v _ hclear =>
    obtain ⟨hrep, hskel⟩ := clearWakeTick_spec h.rep hc hclear
    refine ⟨⟨a, rfl, h.move hi hrep rfl hskel ?_⟩,
      advance_of_skeleton hskel (fun he => he) (fun he => he), ?_, by simp, by simp⟩
    · exact ⟨⟨hplain.unlinked, hplain.active⟩, fun hw => absurd rfl hw, hx.stackBase,
        hx.stackSize⟩
    · simp [Control.pc, Pc.resumes]
  | blocks _ hearly hset hen =>
    obtain ⟨hrep, hskel⟩ := sleepEnqueue_spec h.rep hc hm hplain.unlinked hset hen
    refine ⟨⟨a.join q c, rfl, h.move hi hrep rfl hskel ?_⟩,
      advance_of_skeleton hskel (by simp) (by simp), by simp [Control.pc, Pc.resumes], by simp,
      by simp⟩
    exact ⟨.inr ⟨rfl, .inr ⟨rfl, rfl, by omega⟩⟩, fun _ => rfl, hx.stackBase, hx.stackSize⟩

/-- `wait_queue_remove_locked` on the current thread. -/
theorem removeCurrent_wf {found : Bool} (h : Wf s pc a) (hc : s.currentThread = some c)
    (hi : s.idleThread ≠ some c) (hq : (s.thread c).waitQueue = none ∨
      (s.thread c).waitQueue = some q) (hactive : Active (s.thread c))
    (hs : waitQueueRemoveLocked s q s.currentThread = .ok (s', found)) (hp : ∀ x, Plain x → Fits p x) :
    Wf s' (Function.update pc c p) (a.leave q c) ∧ Advance s s' := by
  have hm := h.current c hc
  have hx := h.threads c hm
  obtain ⟨s₁, b, hok, hrep, hskel⟩ := waitQueueRemoveLocked_eq (q := q) h.rep hm
  rw [hc, hok] at hs
  obtain ⟨rfl, rfl⟩ := Prod.mk.inj (Except.ok.inj hs)
  have hskel' : s₁.skeleton = s.skeleton.modifyThread c fun x => { x with waitQueue := none } := by
    rw [hskel]
    split
    next => rfl
    next hne =>
      have hnone : (s.skeleton.thread c).waitQueue = none := by
        rcases hq with hq | hq
        · exact hq
        · exact absurd hq hne
      rw [Scheduler.modifyThread, ← hnone, Function.update_eq_self]
  refine ⟨h.move (b := a.leave q c) hi hrep rfl hskel' ⟨hp _ ⟨rfl, hactive⟩, hx.wake,
    hx.stackBase, hx.stackSize⟩, advance_of_skeleton hskel' (fun he => he) (fun he => he)⟩

/-! ### Wakeup, creation and exit -/

/-- A wakeup that does not panic readies threads that were blocked on a wait queue. -/
theorem waitQueueWake_wf {k k' : Kernel} {kind : WakeKind} {queue : Option QueuePtr}
    (hf : k.locks.Free) (h : Wf k.sched pc a) (hs : waitQueueWake kind k queue = .ok k') :
    k'.locks = k.locks ∧ ∃ a' l, a'.run = a.run ∧ Wf k'.sched pc a' ∧
      k'.sched.skeleton = k.sched.skeleton.wakeUp l ∧
      ∀ t ∈ l, Waitable k.sched t ∧ ∃ q, (k.sched.thread t).waitQueue = some q := by
  cases queue with
  | none =>
    obtain rfl := Except.ok.inj hs
    exact ⟨rfl, a, [], rfl, h, by rw [wakeUp_nil], by simp⟩
  | some q =>
    obtain ⟨⟨k₁, u⟩, hlock, hk⟩ := bind_ok hs
    obtain rfl := Except.ok.inj hk
    obtain ⟨hbody, hlocks⟩ := withLock_ok hf hlock
    obtain ⟨s₁, hwake, hpair⟩ := map_ok hbody
    obtain ⟨rfl, -⟩ := Prod.mk.inj hpair
    have hall : ∀ t ∈ kind.removed (a.wait q), Waitable k.sched t := by
      by_contra hnot
      push Not at hnot
      rw [(wakeLocked_eq h.rep kind q).2 hnot] at hwake
      cases hwake
    obtain ⟨s₂, hok, hwf, hskel⟩ := h.wake kind q hall
    obtain rfl := Except.ok.inj (hwake.symm.trans hok)
    refine ⟨hlocks, { a with wait := Function.update a.wait q (kind.left (a.wait q)) }, _, rfl,
      hwf, hskel, fun t ht => ⟨hall t ht, q, ?_⟩⟩
    have hmem := WakeKind.mem_of_removed ht
    exact (h.rep.owner q t (h.rep.waitSub q t hmem)).mp hmem

theorem wakeUp_state {l : List ThreadPtr} (hskel : s'.skeleton = s.skeleton.wakeUp l)
    (u : ThreadPtr) : (s'.thread u).state = if u ∈ l then .ready else (s.thread u).state := by
  rw [← skeleton_state, hskel, wakeUp_thread]
  split <;> rfl

/-- A wakeup by an unlinked thread. -/
theorem advance_of_wakeUp {l : List ThreadPtr} (hskel : s'.skeleton = s.skeleton.wakeUp l)
    (hl : ∀ c, s.currentThread = some c → c ∉ l) : Advance s s' := by
  have hfield {β : Type} (g : Scheduler → β) : g s'.skeleton = g (s.skeleton.wakeUp l) :=
    congrArg g hskel
  refine ⟨hfield Scheduler.currentThread, hfield Scheduler.idleThread,
    hfield Scheduler.scheduleLocked, hfield Scheduler.needResched, hfield Scheduler.irqDepth,
    hfield Scheduler.tickCount, fun u hu => ?_, fun u hu hr => ?_⟩
  · rw [wakeUp_state hskel] at hu
    split at hu
    next => cases hu
    next => exact hu
  · rw [wakeUp_state hskel, if_neg (hl u hu)] at hr
    exact hr

def Control.threads : Control → List ThreadPtr
  | .spawned (some t) => [t]
  | _ => []

/-- A call that creates no thread changes nothing. -/
theorem kernelThreadCreate_cases {k k' : Kernel} {entry stack : ℕ} {object made : Option ThreadPtr}
    (hs : kernelThreadCreate k entry object stack = .ok (k', made)) :
    k' = k ∧ made = none ∨ ∃ t, object = some t ∧ stack ≠ 0 ∧ withLock k .scheduler (fun s =>
      .ok (enqueueThread (initThread s t entry stack) t, some t)) = .ok (k', made) := by
  have hnone (he : (Except.ok (k, none) : Except Stop (Kernel × Option ThreadPtr)) =
      .ok (k', made)) : k' = k ∧ made = none := by
    cases he
    exact ⟨rfl, rfl⟩
  unfold kernelThreadCreate at hs
  split at hs
  next => exact .inl (hnone hs)
  next =>
    split at hs
    next => exact .inl (hnone hs)
    next t =>
      split at hs
      next => exact .inl (hnone hs)
      next hstack => exact .inr ⟨t, rfl, hstack, hs⟩

theorem kernelThreadCreate_wf {k k' : Kernel} {entry stack : ℕ} {object made : Option ThreadPtr}
    (hf : k.locks.Free) (h : Wf k.sched pc a) (hfresh : Fresh k.sched (.create entry object stack))
    (hs : kernelThreadCreate k entry object stack = .ok (k', made)) :
    k'.locks = k.locks ∧ Advance k.sched k'.sched ∧
      (∀ t ∈ (Control.spawned made).threads, (k'.sched.thread t).state = .ready) ∧
      ∃ a', a'.run = a.run ++ (Control.spawned made).threads ∧
        Wf k'.sched (movePc pc none (.spawned made)) a' := by
  rcases kernelThreadCreate_cases hs with ⟨rfl, rfl⟩ | ⟨t, rfl, hstack, hlock⟩
  · exact ⟨rfl, .refl _, by simp [Control.threads], a, by simp [Control.threads], h⟩
  · obtain ⟨hbody, hlocks⟩ := withLock_ok hf hlock
    obtain ⟨hsched, rfl⟩ := Prod.mk.inj (Except.ok.inj hbody)
    have hskel := enqueueInit_skeleton (s := k.sched) (t := t) entry stack
    rw [hsched] at hskel
    have hfield {β : Type} (g : Scheduler → β) : g k'.sched.skeleton =
      g (initThread k.sched t entry stack).skeleton := congrArg g hskel
    have hstate (u : ThreadPtr) : (k'.sched.thread u).state =
        if u = t then .ready else (k.sched.thread u).state := by
      rw [← skeleton_state, hskel, skeleton_state]
      simp only [initThread, Function.update_apply]
      split <;> rfl
    refine ⟨hlocks, ⟨hfield Scheduler.currentThread, hfield Scheduler.idleThread,
      hfield Scheduler.scheduleLocked, hfield Scheduler.needResched,
      hfield Scheduler.irqDepth, hfield Scheduler.tickCount, fun u hu => ?_,
      fun u hu hr => ?_⟩, fun u hu => ?_, { a with run := a.run ++ [t] }, rfl, ?_⟩
    · rw [hstate] at hu
      split at hu
      next => cases hu
      next => exact hu
    · have hne : u ≠ t := by
        rintro rfl
        have hm := (h.rep.allocated u).mpr (h.current u hu)
        rw [show k.sched.allocated u = false from hfresh] at hm
        cases hm
      rwa [hstate, if_neg hne] at hr
    · rw [hstate, if_pos (List.mem_singleton.mp hu)]
    · rw [← hsched]
      exact h.create hfresh hstack

theorem schedThreadExit_ok (hs : schedThreadExit s = .ok s') :
    ∃ c, s.currentThread = some c ∧ threadSetZombie s s.currentThread = .ok s' := by
  unfold schedThreadExit at hs
  split at hs
  next => cases hs
  next hsome =>
    obtain ⟨c, hc⟩ := Option.ne_none_iff_exists'.mp hsome
    split at hs
    next => cases hs
    next => exact ⟨c, hc, hs⟩

/-- Exit marks the current thread as a zombie. -/
theorem schedThreadExit_wf (h : Wf s pc a) (hc : s.currentThread = some c)
    (hi : s.idleThread ≠ some c) (hplain : Plain (s.thread c)) (hs : schedThreadExit s = .ok s') :
    Wf s' (Function.update pc c .exitYield) a ∧ Advance s s' := by
  have hx := h.threads c (h.current c hc)
  obtain ⟨-, -, hset⟩ := schedThreadExit_ok hs
  exact setState_wf h hc hi hset (by simp) (by simp)
    ⟨⟨hplain.unlinked, rfl⟩, fun hw => absurd rfl hw, hx.stackBase, hx.stackSize⟩

/-! ### One step -/

/-- What a step of the current context does to the kernel. -/
structure StepOk (k k' : Kernel) (pc : ThreadPtr → Pc) (a : Shape) (current : Option ThreadPtr)
    (control : Control) : Prop where
  locks : k'.locks = k.locks
  wf : ∃ a', a'.run = a.run ++ control.threads ∧ Wf k'.sched (movePc pc current control) a'
  advance : Advance k.sched k'.sched
  spawned : ∀ t ∈ control.threads, (k'.sched.thread t).state = .ready
  point : (∃ p, control = .yieldTo p ∧ k' = k) ∨ (∀ p, control ≠ .yieldTo p) ∧ ¬ control.pc.resumes

variable {k k' : Kernel} {control : Control} {call : Call} {cond : Bool}

/-- A step that changes nothing but the program point. -/
theorem stepOk_stay (h : Wf k.sched pc a) (hi : k.sched.idleThread ≠ some c)
    (hok : ThreadOk control.pc (k.sched.thread c)) (hn : ∀ t, control ≠ .spawned t)
    (hp : (∃ p, control = .yieldTo p) ∨ ¬ control.pc.resumes) :
    StepOk k k pc a (some c) control := by
  have hnone : control.threads = [] := by cases control <;> simp_all [Control.threads]
  refine ⟨rfl, ⟨a, by rw [hnone, List.append_nil], ?_⟩, .refl _, by simp [hnone], ?_⟩
  · have hmove : movePc pc (some c) control = Function.update pc c control.pc := by
      cases control <;> simp_all [movePc]
    rw [hmove]
    exact h.stay hi hok
  · by_cases hy : ∃ p, control = .yieldTo p
    · obtain ⟨p, rfl⟩ := hy
      exact .inl ⟨p, rfl, rfl⟩
    · rcases hp with hp | hp
      · exact absurd hp hy
      · exact .inr ⟨fun p he => hy ⟨p, he⟩, hp⟩

/-- A step that moves the current thread to another point of its call. -/
theorem stepOk_goto {k' : Kernel} (hl : k'.locks = k.locks) (hrun : b.run = a.run)
    (h : Wf k'.sched (Function.update pc c p) b) (ha : Advance k.sched k'.sched)
    (hp : ¬ p.resumes) : StepOk k k' pc a (some c) (.goto p) :=
  ⟨hl, ⟨b, by simp [hrun, Control.threads], h⟩, ha, by simp [Control.threads],
    .inr ⟨by simp, hp⟩⟩

/-! ### What the first step of a call can do -/

/-- A call that leaves the kernel as it is: it returns at once or moves on to another point. -/
inductive Immediate (k : Kernel) : Call → Control → Prop
  | yield : Immediate k .yield (.yieldTo .entry)
  | sleepReturns (ticks : ℕ) : Immediate k (.sleep ticks) (.ret 0)
  | sleep (ticks : ℕ) :
      Immediate k (.sleep ticks) (.goto (.sleepMark (Word.wrap64 (k.sched.tickCount + ticks))))
  | queueSleepReturns (queue : Option QueuePtr) : queue = none ∨ k.sched.currentThread = none →
      Immediate k (.queueSleep queue) (.ret 0)
  | waitReturns (queue : Option QueuePtr) (hasCondition : Bool) (v : ℤ) :
      Immediate k (.wait queue hasCondition) (.ret v)
  | wait (q : QueuePtr) (hasCondition : Bool) :
      Immediate k (.wait (some q) hasCondition) (.goto (.waitCheck q))
  | timeoutReturns (queue : Option QueuePtr) (hasCondition : Bool) (ticks : ℕ) (v : ℤ) :
      Immediate k (.waitTimeout queue hasCondition ticks) (.ret v)
  | timeout (q : QueuePtr) (hasCondition : Bool) (ticks : ℕ) :
      Immediate k (.waitTimeout (some q) hasCondition ticks) (.goto (.timeoutDeadline q ticks))

inductive CallStep (k : Kernel) : Call → Kernel → Control → Prop
  | stays {call : Call} {control : Control} : Immediate k call control → CallStep k call k control
  | queueSleep {k' : Kernel} {control : Control} (q : QueuePtr) : k.sched.currentThread ≠ none →
      (withLock k (.queue q) fun s =>
        (blockWaiting s q).map fun s => (s, .goto (.queueSleepYield q))) = .ok (k', control) →
      CallStep k (.queueSleep (some q)) k' control
  | wake {k' : Kernel} (kind : WakeKind) (queue : Option QueuePtr) :
      waitQueueWake kind k queue = .ok k' → CallStep k (.wake kind queue) k' (.ret 0)
  | create {k' : Kernel} (entry : ℕ) (object : Option ThreadPtr) (stack : ℕ)
      (made : Option ThreadPtr) : kernelThreadCreate k entry object stack = .ok (k', made) →
      CallStep k (.create entry object stack) k' (.spawned made)
  | exit (s : Scheduler) : schedThreadExit k.sched = .ok s →
      CallStep k .exit { k with sched := s } (.goto .exitYield)

theorem beginCall_cases (hs : beginCall k cond call = .ok (k', control)) :
    CallStep k call k' control := by
  have hstays {ctl : Control} (hi : Immediate k call ctl)
      (he : (Except.ok (k, ctl) : Except Stop (Kernel × Control)) = .ok (k', control)) :
      CallStep k call k' control := by
    obtain ⟨rfl, rfl⟩ := Prod.mk.inj (Except.ok.inj he)
    exact .stays hi
  cases call with
  | yield => exact hstays .yield hs
  | sleep ticks =>
    simp only [beginCall] at hs
    split at hs
    next => exact hstays (.sleepReturns ticks) hs
    next =>
      obtain ⟨-, -, hs⟩ := bind_ok hs
      exact hstays (.sleep ticks) hs
  | queueSleep queue =>
    cases queue with
    | none => exact hstays (.queueSleepReturns none (.inl rfl)) hs
    | some q =>
      simp only [beginCall] at hs
      split at hs
      next hnone => exact hstays (.queueSleepReturns _ (.inr hnone)) hs
      next hsome =>
        obtain ⟨-, -, hs⟩ := bind_ok hs
        exact .queueSleep q hsome hs
  | wait queue hasCondition =>
    cases queue with
    | none => exact hstays (.waitReturns ..) hs
    | some q =>
      simp only [beginCall] at hs
      split at hs
      next => exact hstays (.waitReturns ..) hs
      next =>
        obtain ⟨-, -, hs⟩ := bind_ok hs
        exact hstays (.wait ..) hs
  | waitTimeout queue hasCondition ticks =>
    cases queue with
    | none => exact hstays (.timeoutReturns ..) hs
    | some q =>
      simp only [beginCall] at hs
      split at hs
      next => exact hstays (.timeoutReturns ..) hs
      next =>
        obtain ⟨-, -, hs⟩ := bind_ok hs
        split at hs
        next => exact hstays (.timeoutReturns ..) hs
        next =>
          split at hs
          next => exact hstays (.timeoutReturns ..) hs
          next => exact hstays (.timeout ..) hs
  | wake kind queue =>
    obtain ⟨k₁, hw, hr⟩ := bind_ok hs
    obtain ⟨rfl, rfl⟩ := Prod.mk.inj (Except.ok.inj hr)
    exact .wake kind queue hw
  | create entry object stack =>
    obtain ⟨⟨k₁, made⟩, hw, hr⟩ := bind_ok hs
    obtain ⟨rfl, rfl⟩ := Prod.mk.inj (Except.ok.inj hr)
    exact .create entry object stack made hw
  | exit =>
    obtain ⟨s₁, hw, hr⟩ := bind_ok hs
    obtain ⟨rfl, rfl⟩ := Prod.mk.inj (Except.ok.inj hr)
    exact .exit s₁ hw

namespace Immediate

theorem not_spawned (h : Immediate k call control) (t : Option ThreadPtr) :
    control ≠ .spawned t := by
  cases h <;> simp

theorem threads (h : Immediate k call control) : control.threads = [] := by
  cases h <;> rfl

theorem awake (h : Immediate k call control) :
    (∃ p, control = .yieldTo p) ∨ ¬ control.pc.resumes := by
  cases h with
  | yield => exact .inl ⟨_, rfl⟩
  | _ => exact .inr (by simp [Control.pc, Pc.resumes])

/-- The caller goes on as a thread that waits for nothing. -/
theorem fits {x : Thread} (h : Immediate k call control) (hx : Plain x) : Fits control.pc x := by
  cases h <;> exact ⟨hx.unlinked, hx.active⟩

end Immediate

/-! ### What a step inside a call can do -/

/-- The steps that leave the scheduler as it is. -/
inductive PcStays (s : Scheduler) (cond : Bool) : Pc → Control → Prop
  | sleepYield : PcStays s cond .sleepYield (.yieldTo .sleepReturn)
  | sleepReturn : PcStays s cond .sleepReturn (.ret 0)
  | queueSleepYield (q : QueuePtr) :
      PcStays s cond (.queueSleepYield q) (.yieldTo (.queueSleepCheck q))
  | queueSleepAgain (q : QueuePtr) : threadIsWaiting s s.currentThread = true →
      PcStays s cond (.queueSleepCheck q) (.goto (.queueSleepYield q))
  | queueSleepReturns (q : QueuePtr) : threadIsWaiting s s.currentThread = false →
      PcStays s cond (.queueSleepCheck q) (.ret 0)
  | waitReturns (q : QueuePtr) : cond = true → PcStays s cond (.waitCheck q) (.ret 0)
  | waitYield (q : QueuePtr) : PcStays s cond (.waitYield q) (.yieldTo (.waitRemove q))
  | timeoutDeadline (q : QueuePtr) (ticks : ℕ) : PcStays s cond (.timeoutDeadline q ticks)
      (.goto (.timeoutNow q (Word.wrap64 (s.tickCount + ticks))))
  | timeoutNow (q : QueuePtr) (deadline : ℕ) : PcStays s cond (.timeoutNow q deadline)
      (.goto (.timeoutCheck q deadline s.tickCount))
  | timeoutYield (q : QueuePtr) (deadline : ℕ) :
      PcStays s cond (.timeoutYield q deadline) (.yieldTo (.timeoutRemove q deadline))
  | exitYield : PcStays s cond .exitYield (.yieldTo .exitYield)

inductive PcStep (s : Scheduler) (cond : Bool) : Pc → Scheduler → Control → Prop
  | stays {p : Pc} {control : Control} : PcStays s cond p control → PcStep s cond p s control
  | sleepMark {s' : Scheduler} (wakeTick : ℕ) :
      threadSetSleeping s s.currentThread wakeTick = .ok s' →
      PcStep s cond (.sleepMark wakeTick) s' (.goto .sleepYield)
  | waitBlocks {s' : Scheduler} (q : QueuePtr) : cond = false → blockWaiting s q = .ok s' →
      PcStep s cond (.waitCheck q) s' (.goto (.waitYield q))
  | waitRemove {s' : Scheduler} {found : Bool} (q : QueuePtr) :
      waitQueueRemoveLocked s q s.currentThread = .ok (s', found) →
      PcStep s cond (.waitRemove q) s' (.goto (.waitCheck q))
  | timeoutRemove {s' : Scheduler} {found : Bool} (q : QueuePtr) (deadline : ℕ) :
      waitQueueRemoveLocked s q s.currentThread = .ok (s', found) →
      PcStep s cond (.timeoutRemove q deadline) s' (.goto (.timeoutNow q deadline))
  | timeoutCheck {s' : Scheduler} {control : Control} (q : QueuePtr) (deadline now : ℕ) :
      timeoutSection s q deadline now cond = .ok (s', control) →
      PcStep s cond (.timeoutCheck q deadline now) s' control

theorem threadStep_cases (hp : p ≠ .entry) (hs : threadStep k p call cond = .ok (k', control)) :
    PcStep k.sched cond p k'.sched control ∧ (k.locks.Free → k'.locks = k.locks) := by
  have hlocked {q : QueuePtr} {body : Scheduler → Except Stop (Scheduler × Control)}
      (hl : withLock k (.queue q) body = .ok (k', control))
      (hb : body k.sched = .ok (k'.sched, control) → PcStep k.sched cond p k'.sched control) :
      PcStep k.sched cond p k'.sched control ∧ (k.locks.Free → k'.locks = k.locks) :=
    ⟨hb (withLock_body hl), fun hf => (withLock_ok hf hl).2⟩
  cases p with
  | entry => exact absurd rfl hp
  | sleepMark wakeTick =>
    obtain ⟨s, hset, hr⟩ := bind_ok hs
    cases hr
    exact ⟨.sleepMark wakeTick hset, fun _ => rfl⟩
  | queueSleepCheck q =>
    rw [threadStep] at hs
    refine hlocked hs fun hbody => ?_
    generalize k'.sched = s' at hbody
    split at hbody
    next hwaiting =>
      cases hbody
      exact .stays (.queueSleepAgain q hwaiting)
    next hwaiting =>
      cases hbody
      exact .stays (.queueSleepReturns q (by simpa using hwaiting))
  | waitCheck q =>
    rw [threadStep] at hs
    refine hlocked hs fun hbody => ?_
    generalize k'.sched = s' at hbody
    cases cond with
    | true =>
      cases hbody
      exact .stays (.waitReturns q rfl)
    | false =>
      obtain ⟨s, hblock, hpair⟩ := map_ok hbody
      cases hpair
      exact .waitBlocks q rfl hblock
  | waitRemove q | timeoutRemove q _ =>
    rw [threadStep] at hs
    refine hlocked hs fun hbody => ?_
    generalize k'.sched = s' at hbody
    obtain ⟨⟨s, found⟩, hremove, hpair⟩ := map_ok hbody
    cases hpair
    constructor
    exact hremove
  | timeoutCheck q deadline now =>
    rw [threadStep] at hs
    exact hlocked hs (.timeoutCheck q deadline now)
  | sleepYield | sleepReturn | queueSleepYield _ | waitYield _ | timeoutDeadline _ _
  | timeoutNow _ _ | timeoutYield _ _ | exitYield =>
    cases hs
    exact ⟨.stays (by constructor), fun _ => rfl⟩

namespace PcStays
variable {s : Scheduler}

theorem not_spawned (h : PcStays s cond p control) (t : Option ThreadPtr) :
    control ≠ .spawned t := by
  cases h <;> simp

theorem awake (h : PcStays s cond p control) :
    (∃ p, control = .yieldTo p) ∨ ¬ control.pc.resumes := by
  cases h <;> simp [Control.pc, Pc.resumes]

theorem fits {x : Thread} (h : PcStays s cond p control) (hx : Fits p x)
    (ha : p.yields ∨ Active x) : Fits control.pc x := by
  cases h with
  | sleepReturn => exact ⟨hx.1, by simpa [Pc.yields] using ha⟩
  | queueSleepReturns q =>
    rcases hx with hx | ⟨-, hwaiting⟩
    · exact hx
    · simp [Pc.yields, Active, hwaiting] at ha
  | waitReturns q => exact ⟨hx.1, hx.2⟩
  | _ => exact hx

end PcStays

/-- The calls that a context without a thread object can complete. -/
theorem beginCall_boot (hf : k.locks.Free) (h : Wf k.sched pc a)
    (hc : k.sched.currentThread = none) (hfresh : Fresh k.sched call)
    (hs : beginCall k cond call = .ok (k', control)) : StepOk k k' pc a none control := by
  cases beginCall_cases hs with
  | stays hstays =>
    have hnone := hstays.threads
    refine ⟨rfl, ⟨a, by rw [hnone, List.append_nil], ?_⟩, .refl _, by simp [hnone], ?_⟩
    · cases hstays <;> exact h
    · cases hstays with
      | yield => exact .inl ⟨_, rfl, rfl⟩
      | _ => exact .inr ⟨by simp, by simp [Control.pc, Pc.resumes]⟩
  | queueSleep q hsome => exact absurd hc hsome
  | wake kind queue hw =>
    obtain ⟨hlocks, a', l, hrun, hwf, hskel, -⟩ := waitQueueWake_wf hf h hw
    exact ⟨hlocks, ⟨a', by simp [hrun, Control.threads], hwf⟩,
      advance_of_wakeUp hskel (by simp [hc]), by simp [Control.threads],
      .inr ⟨by simp, by simp [Control.pc, Pc.resumes]⟩⟩
  | create entry object stack made hw =>
    obtain ⟨hlocks, hadv, hnew, hwf⟩ := kernelThreadCreate_wf hf h hfresh hw
    exact ⟨hlocks, hwf, hadv, hnew, .inr ⟨by simp, by simp [Control.pc, Pc.resumes]⟩⟩
  | exit s hw =>
    obtain ⟨c, hcur, -⟩ := schedThreadExit_ok hw
    rw [hc] at hcur
    cases hcur

/-- The calls of a thread. -/
theorem beginCall_wf (hf : k.locks.Free) (h : Wf k.sched pc a)
    (hc : k.sched.currentThread = some c) (hi : k.sched.idleThread ≠ some c)
    (hpc : pc c = .entry) (hfresh : Fresh k.sched call)
    (hs : beginCall k cond call = .ok (k', control)) : StepOk k k' pc a (some c) control := by
  have hm := h.current c hc
  have hx := h.threads c hm
  have hplain : Plain (k.sched.thread c) := by
    have := hx.fits
    rw [hpc] at this
    exact ⟨this.1, this.2⟩
  have hupd : Function.update pc c .entry = pc := by rw [← hpc, Function.update_eq_self]
  cases beginCall_cases hs with
  | stays hstays =>
    exact stepOk_stay h hi ⟨hstays.fits hplain, hx.wake, hx.stackBase, hx.stackSize⟩
      hstays.not_spawned hstays.awake
  | queueSleep q _ hlock =>
    obtain ⟨hbody, hlocks⟩ := withLock_ok hf hlock
    obtain ⟨s₁, hb, hpair⟩ := map_ok hbody
    obtain ⟨rfl, rfl⟩ := Prod.mk.inj hpair
    obtain ⟨hwf, hadv⟩ := blockWaiting_wf h hc hi hplain hb (.inl rfl)
    exact stepOk_goto (b := a.join q c) hlocks rfl hwf hadv (by simp [Pc.resumes])
  | wake kind queue hw =>
    obtain ⟨hlocks, a', l, hrun, hwf, hskel, hl⟩ := waitQueueWake_wf hf h hw
    refine ⟨hlocks, ⟨a', by simp [hrun, Control.threads], ?_⟩, advance_of_wakeUp hskel ?_,
      by simp [Control.threads], .inr ⟨by simp, by simp [Control.pc, Pc.resumes]⟩⟩
    · change Wf _ (Function.update pc c .entry) a'
      rw [hupd]
      exact hwf
    · intro u hu hmem
      obtain rfl := Option.some.inj (hc.symm.trans hu)
      obtain ⟨-, q, hq⟩ := hl c hmem
      rw [hplain.unlinked] at hq
      cases hq
  | create entry object stack made hw =>
    obtain ⟨hlocks, hadv, hnew, a', hrun, hwf⟩ := kernelThreadCreate_wf hf h hfresh hw
    refine ⟨hlocks, ⟨a', hrun, ?_⟩, hadv, hnew, .inr ⟨by simp, by simp [Control.pc, Pc.resumes]⟩⟩
    have hmove : movePc pc (some c) (.spawned made) = movePc pc none (.spawned made) := by
      simp only [movePc, Control.pc, hupd]
    rw [hmove]
    exact hwf
  | exit s hw =>
    obtain ⟨hwf, hadv⟩ := schedThreadExit_wf h hc hi hplain hw
    exact stepOk_goto (b := a) rfl rfl hwf hadv (by simp [Pc.resumes])

/-- The section after a wakeup: the thread leaves the wait queue and goes to `p`. -/
theorem stepOk_leave {found : Bool} (h : Wf k.sched pc a) (hc : k.sched.currentThread = some c)
    (hi : k.sched.idleThread ≠ some c)
    (hq : (k.sched.thread c).waitQueue = none ∨ (k.sched.thread c).waitQueue = some q)
    (hactive : Active (k.sched.thread c)) (hp : ∀ x, Plain x → Fits p x) (hr : ¬ p.resumes)
    (hs : waitQueueRemoveLocked k.sched q k.sched.currentThread = .ok (s', found)) :
    StepOk k ⟨s', k.locks⟩ pc a (some c) (.goto p) := by
  obtain ⟨hwf, hadv⟩ := removeCurrent_wf h hc hi hq hactive hs hp
  exact stepOk_goto (b := a.leave q c) rfl rfl hwf hadv hr

/-- Every step of a thread that is awake keeps the invariant, wherever the thread stands. -/
theorem threadStep_wf (hf : k.locks.Free) (h : Wf k.sched pc a)
    (hc : k.sched.currentThread = some c) (hi : k.sched.idleThread ≠ some c)
    (hawake : (pc c).yields ∨ Active (k.sched.thread c)) (hfresh : Fresh k.sched call)
    (hs : threadStep k (pc c) call cond = .ok (k', control)) :
    StepOk k k' pc a (some c) control := by
  have hx := h.threads c (h.current c hc)
  have hfit := hx.fits
  by_cases hentry : pc c = .entry
  · rw [hentry] at hs
    exact beginCall_wf hf h hc hi hentry hfresh hs
  obtain ⟨hstep, hlocks⟩ := threadStep_cases hentry hs
  replace hlocks := hlocks hf
  obtain ⟨s', l⟩ := k'
  obtain rfl : l = k.locks := hlocks
  generalize pc c = p at hstep hfit hawake
  cases hstep with
  | stays hq =>
    exact stepOk_stay h hi ⟨hq.fits hfit hawake, hx.wake, hx.stackBase, hx.stackSize⟩
      hq.not_spawned hq.awake
  | sleepMark wakeTick hset =>
    obtain ⟨hwf, hadv⟩ := setState_wf (p := .sleepYield) h hc hi hset (by simp) (by simp)
      ⟨⟨hfit.1, .inr rfl⟩, fun _ => rfl, hx.stackBase, hx.stackSize⟩
    exact stepOk_goto (b := a) rfl rfl hwf hadv (by simp [Pc.resumes])
  | waitBlocks q _ hblock =>
    obtain ⟨hwf, hadv⟩ := blockWaiting_wf h hc hi ⟨hfit.1, hfit.2⟩ hblock (.inr rfl)
    exact stepOk_goto (b := a.join q c) rfl rfl hwf hadv (by simp [Pc.resumes])
  | waitRemove q hremove | timeoutRemove q _ hremove =>
    have hactive : Active (k.sched.thread c) := by simpa [Pc.yields] using hawake
    exact stepOk_leave h hc hi (hfit.imp And.left And.left) hactive
      (fun x hx => ⟨hx.unlinked, hx.active⟩) (by simp [Pc.resumes]) hremove
  | timeoutCheck q deadline now hsection =>
    obtain ⟨⟨a', hrun, hwf⟩, hadv, hres, hn, hy⟩ :=
      timeoutSection_wf h hc hi ⟨hfit.1, hfit.2⟩ hsection
    have hnone : control.threads = [] := by cases control <;> simp_all [Control.threads]
    refine ⟨rfl, ⟨a', by rw [hnone, List.append_nil, hrun], ?_⟩, hadv, by simp [hnone],
      .inr ⟨hy, hres⟩⟩
    have hmove : movePc pc (some c) control = Function.update pc c control.pc := by
      cases control <;> simp_all [movePc]
    rw [hmove]
    exact hwf

theorem threadStep_yields (k : Kernel) (call : Call) (cond : Bool) (hy : p.yields) : ∃ r, threadStep k p call cond = .ok (k, .yieldTo r) := by
  cases p <;> simp_all [Pc.yields, threadStep]

end

end Tianole.Sched
