import Tianole.Sched.Effect

/-! Blocking channels: a buffer beside a wait queue that also locks it. A reader waits with
`wait_queue_wait` until the buffer holds an item and takes one in a second critical section;
a producer adds an item and wakes one reader in the same section. Threads, interrupts and the
rest of the kernel interleave at critical sections. -/
namespace Tianole.Sched
open Runs Links

/-- What a driver does under the lock: the wait condition, the insertion of an item and
whether it is followed by `wait_queue_wake_one_locked`, and the removal of an item. Producers
make only the requests that `allows` admits. -/
structure Channel (β ι ρ γ : Type) where
  queue : QueuePtr
  hasItem : β → Bool
  allows : β → ι → Prop
  put : β → ι → β × Bool
  take : β → ρ → β × γ

/-- Where a thread stands with a channel: outside, in `wait_queue_wait` and not woken since
its last check, unlinked by a wakeup and not yet back at the check, or behind a check that
succeeded and not yet at the removal. -/
inductive ReaderPhase where
  | away | checking | woken | seen
  deriving DecidableEq, Repr

/-- The kernel, the buffer, the readers, and the results of all finished blocking reads. -/
structure ChannelState (β γ : Type) where
  sys : System
  buffer : β
  phase : ThreadPtr → ReaderPhase
  results : List (ThreadPtr × γ)

/-- A step of the rest of the kernel or inside `wait_queue_wait`, the call of a blocking read,
its removal of an item, a non-blocking read, and an insertion. The last two may come from an
interrupt. -/
inductive ChannelAction (ι ρ : Type) where
  | system (act : Action)
  | read
  | pop (arg : ρ)
  | tryRead (arg : ρ)
  | put (item : ι)

namespace Channel
variable {β ι ρ γ : Type} (ch : Channel β ι ρ γ) (σ : ChannelState β γ)

/-- The check of `wait_queue_wait` evaluates the condition of the channel. -/
def condition : Action → Action
  | .thread call cond =>
      .thread call (if σ.sys.point = .waitCheck ch.queue then ch.hasItem σ.buffer else cond)
  | act => act

/-- The phase of the running thread set to `p`. -/
def mark (p : ReaderPhase) (t : ThreadPtr) : ReaderPhase :=
  if σ.sys.kernel.sched.currentThread = some t then p else σ.phase t

/-- The phases after a step of the system; a new thread is outside. -/
def phaseAfter (act : Action) (t : ThreadPtr) : ReaderPhase :=
  if t ∈ σ.sys.spawned act then .away
  else match act with
    | .thread _ _ =>
        if σ.sys.halted = false ∧ σ.sys.point = .waitCheck ch.queue then
          mark σ (if ch.hasItem σ.buffer then .seen else .checking) t
        else σ.phase t
    | _ => σ.phase t

/-- The phases after a wakeup of the oldest waiter. -/
def phaseWoken : ThreadPtr → ReaderPhase :=
  match (σ.sys.kernel.sched.queue ch.queue).head with
  | some t => Function.update σ.phase t .woken
  | none => σ.phase

def step : ChannelAction ι ρ → Except Stop (ChannelState β γ)
  | .system act =>
      let act := ch.condition σ act
      (σ.sys.step act).map fun sys => { σ with sys := sys, phase := ch.phaseAfter σ act }
  | .read =>
      (σ.sys.step (.thread (.wait (some ch.queue) true) false)).map fun sys =>
        { σ with sys := sys, phase := mark σ .checking }
  | .pop arg =>
      (withLock σ.sys.kernel (.queue ch.queue) fun s => .ok (s, ch.take σ.buffer arg)).map
        fun r => { sys := ⟨r.1, σ.sys.pc⟩, buffer := r.2.1, phase := mark σ .away,
                   results := σ.results ++
                     σ.sys.kernel.sched.currentThread.toList.map fun c => (c, r.2.2) }
  | .tryRead arg =>
      (withLock σ.sys.kernel (.queue ch.queue) fun s => .ok (s, ch.take σ.buffer arg)).map
        fun r => { σ with sys := ⟨r.1, σ.sys.pc⟩, buffer := r.2.1 }
  | .put item =>
      (withLock σ.sys.kernel (.queue ch.queue) fun s =>
        if (ch.put σ.buffer item).2 then
          (wakeLocked .one s (some ch.queue)).map fun s => (s, ch.phaseWoken σ)
        else .ok (s, σ.phase)).map
        fun r => { σ with sys := ⟨r.1, σ.sys.pc⟩, buffer := (ch.put σ.buffer item).1,
                          phase := r.2 }

end Channel

/-- The wait queue that a call names. -/
def Call.queue : Call → Option QueuePtr
  | .queueSleep queue | .wait queue _ | .waitTimeout queue _ _ | .wake _ queue => queue
  | _ => none

namespace Channel
variable {β ι ρ γ : Type} (ch : Channel β ι ρ γ)

/-- The wait queue of a channel is private to it, a blocking read is called by a thread other
than the idle one, and a reader whose wait has succeeded goes on to its removal. -/
def Admissible (σ : ChannelState β γ) : ChannelAction ι ρ → Prop
  | .system (.thread call cond) => Sched.Admissible σ.sys (.thread call cond) ∧
      (σ.sys.point = .entry → call.queue ≠ some ch.queue) ∧
      ∀ c, σ.sys.kernel.sched.currentThread = some c → σ.phase c ≠ .seen
  | .system (.wake _ queue) => queue ≠ some ch.queue
  | .system .tick | .system .irqExit => True
  | .read => ∃ c, σ.sys.kernel.sched.currentThread = some c ∧
      σ.sys.kernel.sched.idleThread ≠ some c ∧ σ.sys.pc c = .entry ∧ σ.phase c = .away
  | .pop _ => ∃ c, σ.sys.kernel.sched.currentThread = some c ∧ σ.phase c = .seen
  | .tryRead _ => True
  | .put item => ch.allows σ.buffer item

instance [∀ b x, Decidable (ch.allows b x)] (σ : ChannelState β γ) (act : ChannelAction ι ρ) :
    Decidable (ch.Admissible σ act) :=
  match act with
  | .system (.thread call cond) =>
      decidable_of_iff (Fresh σ.sys.kernel.sched call ∧
        (σ.sys.point = .entry → call.queue ≠ some ch.queue) ∧
        σ.sys.kernel.sched.currentThread.all (fun c => decide (σ.phase c ≠ .seen)) = true)
        (by simp [Admissible, Sched.Admissible, Option.all_eq_true])
  | .system (.wake _ queue) => inferInstanceAs (Decidable (queue ≠ some ch.queue))
  | .system .tick | .system .irqExit => isTrue trivial
  | .read =>
      decidable_of_iff (σ.sys.kernel.sched.currentThread.any (fun c =>
        decide (σ.sys.kernel.sched.idleThread ≠ some c ∧ σ.sys.pc c = .entry ∧
          σ.phase c = .away)) = true) (by simp [Admissible, Option.any_eq_true])
  | .pop _ =>
      decidable_of_iff (σ.sys.kernel.sched.currentThread.any (fun c =>
        decide (σ.phase c = .seen)) = true) (by simp [Admissible, Option.any_eq_true])
  | .tryRead _ => isTrue trivial
  | .put item => inferInstanceAs (Decidable (ch.allows σ.buffer item))

/-- The kernel has started, the buffer is as `start` says, and nobody has read. -/
def Initial (start : β → Prop) (σ : ChannelState β γ) : Prop :=
  (∃ run, Sched.Initial σ.sys run) ∧ start σ.buffer ∧ σ.phase = (fun _ => .away) ∧
    σ.results = []

/-- The states of all runs whose steps meet `ok`. -/
def Reachable (start : β → Prop) (ok : ChannelState β γ → ChannelAction ι ρ → Prop) :
    ChannelState β γ → Prop :=
  Reach ch.step (Initial start) fun σ act => ch.Admissible σ act ∧ ok σ act

/-- A buffer that keeps count: `Holds b n` says that `b` is well formed and holds `n` items,
and `Good` tells the results that carry an item. -/
structure Lawful (Holds : β → ℕ → Prop) (Good : γ → Prop) : Prop where
  hasItem {b : β} {n : ℕ} : Holds b n → (ch.hasItem b = true ↔ 0 < n)
  put {b : β} {n : ℕ} : Holds b n → ∀ x, ch.allows b x →
    Holds (ch.put b x).1 (if (ch.put b x).2 then n + 1 else n)
  take_zero {b : β} : Holds b 0 → ∀ x, Holds (ch.take b x).1 0
  take_succ {b : β} {n : ℕ} : Holds b (n + 1) → ∀ x,
    Holds (ch.take b x).1 n ∧ Good (ch.take b x).2

end Channel

/-- The points of `wait_queue_wait` on `q`. -/
def Pc.waitsOn (q : QueuePtr) : Pc → Prop
  | .waitCheck p | .waitYield p | .waitRemove p => p = q
  | _ => False

/-- The points of the other blocking calls on `q`. -/
def Pc.foreign (q : QueuePtr) : Pc → Prop
  | .queueSleepYield p | .queueSleepCheck p | .timeoutDeadline p _ | .timeoutNow p _
  | .timeoutCheck p _ _ | .timeoutYield p _ | .timeoutRemove p _ => p = q
  | _ => False

/-- The phase of a thread fits the point at which it stands. -/
structure Placed (q : QueuePtr) (pc : Pc) (phase : ReaderPhase) : Prop where
  foreign : ¬ pc.foreign q
  away : phase = .away → ¬ pc.waitsOn q
  inside : phase = .checking ∨ phase = .woken → pc.waitsOn q
  seen : phase = .seen → pc = .entry

section
variable {q : QueuePtr} {pc p : Pc} {phase : ReaderPhase} {call : Call} {cond : Bool}

theorem placed_away (hf : ¬ p.foreign q) (hw : ¬ p.waitsOn q) : Placed q p .away :=
  ⟨hf, fun _ => hw, by simp, by simp⟩

theorem placed_inside (hw : p.waitsOn q) (hp : phase = .checking ∨ phase = .woken) :
    Placed q p phase := by
  refine ⟨?_, ?_, fun _ => hw, ?_⟩
  · cases p <;> simp_all [Pc.waitsOn, Pc.foreign]
  · rcases hp with rfl | rfl <;> simp
  · rcases hp with rfl | rfl <;> simp

/-- Outside the wait a thread has no phase, unless it is about to take an item. -/
theorem Placed.outside (h : Placed q pc phase) (hw : ¬ pc.waitsOn q)
    (he : pc = .entry → phase ≠ .seen) : phase = .away := by
  cases hp : phase with
  | away => rfl
  | checking => exact absurd (h.inside (.inl hp)) hw
  | woken => exact absurd (h.inside (.inr hp)) hw
  | seen => exact absurd hp (he (h.seen hp))

theorem Call.Leads.outside (hl : call.Leads p) (hcall : call.queue ≠ some q) :
    ¬ p.foreign q ∧ ¬ p.waitsOn q := by
  cases call with
  | queueSleep queue | wait queue _ | waitTimeout queue _ _ =>
    rcases hl with rfl | ⟨r, rfl, rfl⟩
    · simp [Pc.foreign, Pc.waitsOn]
    · have hne : r ≠ q := by simpa [Call.queue] using hcall
      simp [Pc.foreign, Pc.waitsOn, hne]
  | sleep ticks => rcases hl with rfl | ⟨tick, rfl⟩ <;> simp [Pc.foreign, Pc.waitsOn]
  | yield | wake _ _ | create _ _ _ | exit =>
    obtain rfl := hl
    simp [Pc.foreign, Pc.waitsOn]

/-- Nobody enters the wait but through the call, and nobody leaves it but by the check. -/
theorem Pc.Leads.outside (hl : pc.Leads call cond p)
    (hcall : pc = .entry → call.queue ≠ some q) (hf : ¬ pc.foreign q) (hw : ¬ pc.waitsOn q) :
    ¬ p.foreign q ∧ ¬ p.waitsOn q := by
  cases pc with
  | entry => exact Call.Leads.outside hl (hcall rfl)
  | waitCheck r =>
    obtain rfl := hl
    cases cond <;> simp_all [Pc.foreign, Pc.waitsOn]
  | queueSleepCheck r | timeoutCheck r _ _ =>
    rcases hl with rfl | rfl <;> simp_all [Pc.foreign, Pc.waitsOn]
  | timeoutDeadline r _ | timeoutNow r _ =>
    obtain ⟨_, rfl⟩ := hl
    simp_all [Pc.foreign, Pc.waitsOn]
  | sleepMark _ | sleepYield | sleepReturn | queueSleepYield _ | waitYield _ | waitRemove _
  | timeoutYield _ _ | timeoutRemove _ _ | exitYield =>
    obtain rfl := hl
    simp_all [Pc.foreign, Pc.waitsOn]

/-- A step keeps a thread in place, with the phases of the check. -/
theorem Placed.leads (h : Placed q pc phase) (hl : pc.Leads call cond p)
    (hcall : pc = .entry → call.queue ≠ some q) (hseen : phase ≠ .seen) :
    Placed q p (if pc = .waitCheck q then (if cond then .seen else .checking) else phase) := by
  by_cases hw : pc.waitsOn q
  · have hp : phase = .checking ∨ phase = .woken := by
      cases hp : phase with
      | away => exact absurd hw (h.away hp)
      | checking => exact .inl rfl
      | woken => exact .inr rfl
      | seen => exact absurd hp hseen
    cases pc with
    | waitCheck r =>
      obtain rfl : r = q := hw
      obtain rfl := hl
      rw [if_pos rfl]
      cases cond with
      | true => exact ⟨by simp [Pc.foreign], by simp, by simp, fun _ => rfl⟩
      | false => exact placed_inside rfl (.inl rfl)
    | waitYield r | waitRemove r =>
      obtain rfl : r = q := hw
      obtain rfl := hl
      rw [if_neg (by simp)]
      exact placed_inside rfl hp
    | _ => exact absurd hw (by simp [Pc.waitsOn])
  · have hpc : pc ≠ .waitCheck q := by
      rintro rfl
      exact hw rfl
    obtain ⟨hf', hw'⟩ := hl.outside hcall h.foreign hw
    rw [if_neg hpc, h.outside hw fun _ => hseen]
    exact placed_away hf' hw'

end

/-! ### Counting readers -/

/-- How many threads of the list are in the given phase. -/
def tally (run : List ThreadPtr) (phase : ThreadPtr → ReaderPhase) (p : ReaderPhase) : ℕ :=
  run.countP fun t => decide (phase t = p)

section
variable {run made : List ThreadPtr} {f g : ThreadPtr → ReaderPhase} {c : ThreadPtr}
  {p : ReaderPhase}

theorem tally_congr (h : ∀ t ∈ run, g t = f t) :
    tally run g p = tally run f p :=
  List.countP_congr fun t ht => by simp only [h t ht]

/-- Threads that come or go outside the phase are not counted. -/
theorem tally_run {keep : ThreadPtr → Bool} (hgone : ∀ t ∈ run, keep t = false → f t ≠ p)
    (hmade : ∀ t ∈ made, f t ≠ p) :
    tally (run.filter keep ++ made) f p = tally run f p := by
  have hnone : made.countP (fun t => decide (f t = p)) = 0 :=
    List.countP_eq_zero.mpr fun t ht => by simpa using hmade t ht
  rw [tally, List.countP_append, hnone, Nat.add_zero, List.countP_filter]
  refine List.countP_congr fun t ht => ?_
  simp only [Bool.and_eq_true, decide_eq_true_eq, and_iff_left_iff_imp]
  intro hp
  cases hk : keep t with
  | true => rfl
  | false => exact absurd hp (hgone t ht hk)

/-- One thread goes from its phase under `f` to that under `g`. -/
theorem tally_mark (hn : run.Nodup) (hc : c ∈ run) (h : ∀ t, t ≠ c → g t = f t) :
    tally run g p + (if f c = p then 1 else 0) =
      tally run f p + (if g c = p then 1 else 0) := by
  obtain ⟨A, B, rfl⟩ := List.append_of_mem hc
  obtain ⟨-, hcB, hdisj⟩ := List.nodup_append.mp hn
  have hA : tally A g p = tally A f p :=
    tally_congr fun t ht => h t fun he => hdisj t ht c (by simp) he
  have hB : tally B g p = tally B f p :=
    tally_congr fun t ht => h t fun he => (List.nodup_cons.mp hcB).1 (he ▸ ht)
  simp only [tally, List.countP_append, List.countP_cons, decide_eq_true_eq] at hA hB ⊢
  omega

end

/-! ### The invariant -/

/-- The kernel is in order, the buffer holds `n` items, every reader is in place, linked
readers have not been woken, and as long as one is linked there are enough readers on their
way for all items. -/
structure Served {β ι ρ γ : Type} (ch : Channel β ι ρ γ) (Holds : β → ℕ → Prop)
    (σ : ChannelState β γ) (a : Shape) (n : ℕ) : Prop where
  inv : Inv false σ.sys a
  holds : Holds σ.buffer n
  placed : ∀ t ∈ a.run, Placed ch.queue (σ.sys.pc t) (σ.phase t)
  linked : ∀ t ∈ a.wait ch.queue, σ.phase t = .checking
  enough : a.wait ch.queue ≠ [] → n ≤ tally a.run σ.phase .woken + tally a.run σ.phase .seen

section
variable {β ι ρ γ : Type} {ch : Channel β ι ρ γ} {Holds : β → ℕ → Prop} {Good : γ → Prop}
  {σ σ' : ChannelState β γ} {a : Shape} {n : ℕ} {c : ThreadPtr}

/-- A thread outside the blocking calls is on no wait queue. -/
theorem Inv.unlinked {σ : System} (h : Inv false σ a) {q : QueuePtr} (hc : c ∈ a.run)
    (hp : σ.pc c = .entry ∨ σ.pc c = .waitCheck q) : c ∉ a.wait q := by
  intro hm
  have howner := (h.base.wf.rep.owner q c hc).mp hm
  have hfit := (h.base.wf.threads c hc).fits
  rcases hp with hp | hp <;> rw [hp] at hfit <;> rw [hfit.1] at howner <;> cases howner

theorem mark_self {p : ReaderPhase} (hc : σ.sys.kernel.sched.currentThread = some c) :
    Channel.mark σ p c = p := if_pos hc

theorem mark_of_ne {p : ReaderPhase} (hc : σ.sys.kernel.sched.currentThread = some c)
    {t : ThreadPtr} (ht : t ≠ c) : Channel.mark σ p t = σ.phase t := by
  refine if_neg fun he => ht ?_
  rw [hc] at he
  exact (Option.some.inj he).symm

/-- A critical section that only touches the buffer leaves the kernel as it was. -/
theorem Inv.section_sys {σ : System} (h : Inv false σ a) {α : Type} {x y : α} {lock : LockId}
    {k : Kernel} (hs : withLock σ.kernel lock (fun s => .ok (s, x)) = .ok (k, y)) :
    k = σ.kernel ∧ y = x := by
  obtain ⟨hbody, hlocks⟩ := withLock_ok h.base.free hs
  obtain ⟨hsched, rfl⟩ := Prod.mk.inj (Except.ok.inj hbody)
  obtain ⟨s, l⟩ := k
  obtain rfl : σ.kernel.sched = s := hsched
  obtain rfl : l = σ.kernel.locks := hlocks
  exact ⟨rfl, rfl⟩

theorem Channel.Lawful.take (hl : ch.Lawful Holds Good) {b : β} (hb : Holds b n) (x : ρ) :
    Holds (ch.take b x).1 (n - 1) ∧ (0 < n → Good (ch.take b x).2) := by
  cases n with
  | zero => exact ⟨hl.take_zero hb x, by simp⟩
  | succ n => exact ⟨(hl.take_succ hb x).1, fun _ => (hl.take_succ hb x).2⟩

section
variable {f : ThreadPtr → ReaderPhase}

/-! When one thread changes its phase, the others stay in place. -/

theorem Served.placed_moved (h : Served ch Holds σ a n) {pc : ThreadPtr → Pc}
    (hpc : ∀ t, t ≠ c → pc t = σ.sys.pc t) (hf : ∀ t, t ≠ c → f t = σ.phase t)
    (hc : Placed ch.queue (pc c) (f c)) : ∀ t ∈ a.run, Placed ch.queue (pc t) (f t) := by
  intro t ht
  by_cases htc : t = c
  · subst htc
    exact hc
  · rw [hpc t htc, hf t htc]
    exact h.placed t ht

theorem Served.linked_moved (h : Served ch Holds σ a n) (hf : ∀ t, t ≠ c → f t = σ.phase t)
    (hc : c ∉ a.wait ch.queue) : ∀ t ∈ a.wait ch.queue, f t = .checking := by
  intro t ht
  rw [hf t fun htc => hc (htc ▸ ht)]
  exact h.linked t ht

theorem Served.tally_moved (h : Served ch Holds σ a n) (hc : c ∈ a.run)
    (hf : ∀ t, t ≠ c → f t = σ.phase t) (p : ReaderPhase) :
    tally a.run f p + (if σ.phase c = p then 1 else 0) =
      tally a.run σ.phase p + (if f c = p then 1 else 0) :=
  tally_mark h.inv.base.wf.rep.nodup hc hf

end

/-- A reader whose wait has succeeded takes an item, if there still is one. -/
theorem Served.pop (hl : ch.Lawful Holds Good) (h : Served ch Holds σ a n) {x : ρ}
    (hadm : ch.Admissible σ (.pop x)) (hs : ch.step σ (.pop x) = .ok σ') :
    Served ch Holds σ' a (n - 1) ∧
      tally a.run σ'.phase .seen + 1 = tally a.run σ.phase .seen ∧
      ∃ c r, σ'.results = σ.results ++ [(c, r)] ∧ (0 < n → Good r) := by
  obtain ⟨c, hc, hp⟩ := hadm
  obtain ⟨⟨k, r⟩, hlock, rfl⟩ := map_ok hs
  obtain ⟨rfl, rfl⟩ := h.inv.section_sys hlock
  obtain ⟨hholds, hgood⟩ := hl.take h.holds x
  have hcm := h.inv.base.wf.current c hc
  have hentry := (h.placed c hcm).seen hp
  have hself : Channel.mark σ .away c = .away := mark_self hc
  have hother (t : ThreadPtr) (ht : t ≠ c) : Channel.mark σ .away t = σ.phase t :=
    mark_of_ne hc ht
  have hseen := h.tally_moved hcm hother .seen
  have hwoken := h.tally_moved hcm hother .woken
  simp only [hp, hself, ↓reduceIte, reduceCtorEq, Nat.add_zero] at hseen hwoken
  have hplaced : Placed ch.queue (σ.sys.pc c) (Channel.mark σ .away c) := by
    rw [hself, hentry]
    exact placed_away (by simp [Pc.foreign]) (by simp [Pc.waitsOn])
  refine ⟨⟨h.inv, hholds, h.placed_moved (fun _ _ => rfl) hother hplaced,
    h.linked_moved hother (h.inv.unlinked hcm (.inl hentry)), fun hne => ?_⟩, hseen, c, _, ?_, hgood⟩
  · have henough := h.enough hne
    simp only
    omega
  · simp only [hc]
    rfl

/-- Anybody else may take an item. -/
theorem Served.tryRead (hl : ch.Lawful Holds Good) (h : Served ch Holds σ a n) {x : ρ}
    (hs : ch.step σ (.tryRead x) = .ok σ') : Served ch Holds σ' a (n - 1) ∧
      σ'.phase = σ.phase ∧ σ'.results = σ.results := by
  obtain ⟨⟨k, r⟩, hlock, rfl⟩ := map_ok hs
  obtain ⟨rfl, rfl⟩ := h.inv.section_sys hlock
  refine ⟨⟨h.inv, (hl.take h.holds x).1, h.placed, h.linked, fun hne => ?_⟩, rfl, rfl⟩
  exact Nat.le_trans (Nat.sub_le n 1) (h.enough hne)

/-- The wakeup that follows an insertion is one of the system. -/
theorem Inv.section_wake {σ : System} (h : Inv false σ a) {α : Type} {x y : α} {q : QueuePtr}
    {k : Kernel} (hs : withLock σ.kernel (.queue q) (fun s =>
      (wakeLocked .one s (some q)).map fun s => (s, x)) = .ok (k, y)) :
    y = x ∧ Inv false ⟨k, σ.pc⟩ (a.wake .one (some q)) := by
  obtain ⟨hbody, hlocks⟩ := withLock_ok h.base.free hs
  obtain ⟨s, hwake, hpair⟩ := map_ok hbody
  obtain ⟨rfl, rfl⟩ := Prod.mk.inj hpair
  have hw : waitQueueWake .one σ.kernel (some q) = .ok k := by
    have hk : k = ⟨k.sched, σ.kernel.locks⟩ := by rw [← hlocks]
    simp only [waitQueueWake, withLock_eq (h.base.free.locked _), hwake, Except.map, bind,
      Except.bind, pure, Except.pure]
    exact congrArg _ hk.symm
  have hstep : σ.step (.wake .one (some q)) = .ok ⟨k, σ.pc⟩ := by
    simp only [System.step, hw, Except.map]
  have hadm : Admissible σ (.wake .one (some q)) := trivial
  obtain ⟨a', hinv, hcase⟩ := h.step_cases hadm hstep
  obtain rfl := hcase.of_wake
  exact ⟨rfl, hinv⟩

theorem phaseWoken_nil (h : Inv false σ.sys a) (hq : a.wait ch.queue = []) :
    ch.phaseWoken σ = σ.phase := by
  have hhead := path_head (h.base.wf.rep.wait ch.queue)
  rw [hq] at hhead
  simp only [Channel.phaseWoken, hhead, List.head?_nil]

theorem phaseWoken_cons (h : Inv false σ.sys a) {t : ThreadPtr} {l : List ThreadPtr}
    (hq : a.wait ch.queue = t :: l) : ch.phaseWoken σ = Function.update σ.phase t .woken := by
  have hhead := path_head (h.base.wf.rep.wait ch.queue)
  rw [hq] at hhead
  simp only [Channel.phaseWoken, hhead, List.head?_cons]

/-- An insertion wakes a reader for its item, if one is linked. -/
theorem Served.put (hl : ch.Lawful Holds Good) (h : Served ch Holds σ a n) {x : ι}
    (hadm : ch.Admissible σ (.put x)) (hs : ch.step σ (.put x) = .ok σ') :
    ∃ a' n', n ≤ n' ∧ a'.run = a.run ∧ Served ch Holds σ' a' n' ∧
      tally a.run σ'.phase .seen = tally a.run σ.phase .seen ∧ σ'.results = σ.results := by
  obtain ⟨⟨k, phase⟩, hlock, rfl⟩ := map_ok hs
  have hholds := hl.put h.holds x hadm
  cases hw : (ch.put σ.buffer x).2 with
  | false =>
    simp only [hw, Bool.false_eq_true, ↓reduceIte] at hlock hholds
    obtain ⟨rfl, rfl⟩ := h.inv.section_sys hlock
    exact ⟨a, n, Nat.le_refl n, rfl, ⟨h.inv, hholds, h.placed, h.linked, h.enough⟩, rfl, rfl⟩
  | true =>
    simp only [hw, ↓reduceIte] at hlock hholds
    obtain ⟨rfl, hinv⟩ := h.inv.section_wake hlock
    have hleft : (a.wake .one (some ch.queue)).wait ch.queue = (a.wait ch.queue).drop 1 :=
      Function.update_self _ _ _
    refine ⟨a.wake .one (some ch.queue), n + 1, Nat.le_succ n, rfl, ?_⟩
    cases hq : a.wait ch.queue with
    | nil =>
      rw [hq, List.drop_nil] at hleft
      simp only [phaseWoken_nil h.inv hq]
      refine ⟨⟨hinv, hholds, h.placed, ?_, fun hne => absurd hleft hne⟩, trivial, trivial⟩
      simp [hleft]
    | cons t l =>
      rw [hq, List.drop_succ_cons, List.drop_zero] at hleft
      have hmem : t ∈ a.wait ch.queue := by simp [hq]
      have htm := h.inv.base.wf.rep.waitSub _ t hmem
      have hphase := h.linked t hmem
      have hself : Function.update σ.phase t .woken t = .woken := Function.update_self _ _ _
      have hother (u : ThreadPtr) (hu : u ≠ t) :
          Function.update σ.phase t .woken u = σ.phase u := Function.update_of_ne hu _ _
      have hseen := h.tally_moved htm hother .seen
      have hwoken := h.tally_moved htm hother .woken
      simp only [hphase, hself, ↓reduceIte, reduceCtorEq, Nat.add_zero] at hseen hwoken
      have hplaced : Placed ch.queue (σ.sys.pc t) (Function.update σ.phase t .woken t) := by
        rw [hself]
        exact placed_inside ((h.placed t htm).inside (.inl hphase)) (.inr rfl)
      have hrest : ∀ u ∈ l, Function.update σ.phase t .woken u = .checking := by
        intro u hu
        have hn := h.inv.base.wf.rep.wait_nodup ch.queue
        rw [hq] at hn
        rw [hother u fun hut => (List.nodup_cons.mp hn).1 (hut ▸ hu)]
        exact h.linked u (by simp [hq, hu])
      simp only [phaseWoken_cons h.inv hq]
      refine ⟨⟨hinv, hholds, h.placed_moved (fun _ _ => rfl) hother hplaced,
        hleft.symm ▸ hrest, fun _ => ?_⟩, hseen, trivial⟩
      have henough := h.enough (by simp [hq])
      change n + 1 ≤ tally a.run (Function.update σ.phase t .woken) .woken +
        tally a.run (Function.update σ.phase t .woken) .seen
      omega

/-- Nobody joins the queue but at the check of `wait_queue_wait`, when it fails. -/
theorem Shape.afterStep_sublist (a : Shape) (current : Option ThreadPtr) {call : Call}
    {cond : Bool} {pc : Pc} {q : QueuePtr} (hf : ¬ pc.foreign q)
    (hcall : pc = .entry → call.queue ≠ some q) (hcheck : pc = .waitCheck q → cond = true) :
    ((a.afterStep current call cond pc).wait q).Sublist (a.wait q) := by
  have hmove := a.afterStep_move current call cond pc
  generalize a.afterStep current call cond pc = b at hmove
  cases hmove with
  | stays => exact List.Sublist.refl _
  | wakes kind queue => exact a.wake_sublist kind queue q
  | leaves p => exact a.leave_sublist p current q
  | joins p hjoin =>
    have hp : q ≠ p := by
      rintro rfl
      rcases hjoin with ⟨hpc, rfl⟩ | ⟨hpc, hcond⟩ | ⟨deadline, now, rfl⟩
      · exact hcall hpc rfl
      · simp [hcheck hpc] at hcond
      · exact hf rfl
    cases current with
    | none => exact List.Sublist.refl _
    | some c =>
      have hwait : (a.join p c).wait q = a.wait q := Function.update_of_ne hp _ _
      exact hwait ▸ List.Sublist.refl _

/-- A step of the system that keeps to the protocol of the channel. -/
structure Channel.Keeps (ch : Channel β ι ρ γ) (σ : ChannelState β γ) (act : Action) : Prop where
  fresh : Sched.Admissible σ.sys act
  call : ∀ call cond, act = .thread call cond → σ.sys.point = .entry →
    call.queue ≠ some ch.queue
  check : ∀ call cond, act = .thread call cond → σ.sys.point = .waitCheck ch.queue →
    cond = ch.hasItem σ.buffer
  seen : ∀ call cond, act = .thread call cond → ∀ c,
    σ.sys.kernel.sched.currentThread = some c → σ.phase c ≠ .seen
  wake : ∀ kind queue, act = .wake kind queue → queue ≠ some ch.queue

theorem Channel.Admissible.keeps {act : Action} (h : ch.Admissible σ (.system act)) :
    ch.Keeps σ (ch.condition σ act) := by
  cases act with
  | thread call cond =>
    obtain ⟨hfresh, hcall, hseen⟩ := h
    refine ⟨hfresh, ?_, ?_, ?_, ?_⟩
    · rintro _ _ he
      cases he
      exact hcall
    · rintro _ _ he hpoint
      cases he
      exact if_pos hpoint
    · rintro _ _ -
      exact hseen
    · intro kind queue he
      cases he
  | wake kind queue =>
    refine ⟨trivial, ?_, ?_, ?_, ?_⟩
    · intro _ _ he
      cases he
    · intro _ _ he
      cases he
    · intro _ _ he
      cases he
    · rintro _ _ he
      cases he
      exact h
  | tick | irqExit => constructor <;> simp [Channel.condition, Sched.Admissible]

/-- The running thread is at the check of the channel and runs it. -/
def Channel.Checks (ch : Channel β ι ρ γ) (σ : ChannelState β γ) : Action → Prop
  | .thread _ _ => σ.sys.halted = false ∧ σ.sys.point = .waitCheck ch.queue
  | _ => False

theorem Channel.checks_condition {act : Action} :
    ch.Checks σ (ch.condition σ act) ↔ ch.Checks σ act := by
  cases act <;> exact Iff.rfl

section
variable {act : Action} {t : ThreadPtr}

theorem phaseAfter_made (ht : t ∈ σ.sys.spawned act) : ch.phaseAfter σ act t = .away :=
  if_pos ht

theorem phaseAfter_rest (hn : ¬ ch.Checks σ act) (ht : t ∉ σ.sys.spawned act) :
    ch.phaseAfter σ act t = σ.phase t := by
  refine (if_neg ht).trans ?_
  cases act with
  | thread call cond => exact if_neg hn
  | tick | wake _ _ | irqExit => rfl

theorem phaseAfter_check (hk : ch.Checks σ act) (ht : t ∉ σ.sys.spawned act) :
    ch.phaseAfter σ act t =
      Channel.mark σ (if ch.hasItem σ.buffer then .seen else .checking) t := by
  refine (if_neg ht).trans ?_
  cases act with
  | thread call cond => exact if_pos hk
  | tick | wake _ _ | irqExit => exact hk.elim

/-- The check is run by a thread that stands there. -/
theorem Channel.Checks.current (hk : ch.Checks σ act) :
    ∃ c, σ.sys.kernel.sched.currentThread = some c ∧ σ.sys.pc c = .waitCheck ch.queue ∧
      σ.sys.halted = false ∧ ∃ call cond, act = .thread call cond := by
  cases act with
  | thread call cond =>
    obtain ⟨hh, hpoint⟩ := hk
    unfold System.point at hpoint
    cases hc : σ.sys.kernel.sched.currentThread with
    | none =>
      rw [hc] at hpoint
      cases hpoint
    | some c =>
      rw [hc] at hpoint
      exact ⟨c, rfl, hpoint, hh, call, cond, rfl⟩
  | tick | wake _ _ | irqExit => exact hk.elim

/-- A thread away from the check keeps its phase. -/
theorem phaseAfter_of_ne (ht : t ∉ σ.sys.spawned act) (hpc : σ.sys.pc t ≠ .waitCheck ch.queue) :
    ch.phaseAfter σ act t = σ.phase t := by
  by_cases hk : ch.Checks σ act
  · obtain ⟨c, hc, hcpc, -⟩ := hk.current
    rw [phaseAfter_check hk ht]
    refine mark_of_ne hc ?_
    rintro rfl
    exact hpc hcpc
  · exact phaseAfter_rest hk ht

end

section
variable {act : Action} {sys : System} {a' : Shape}

theorem Served.system_placed (h : Served ch Holds σ a n) (hk : ch.Keeps σ act)
    (hcase : StepCase σ.sys a act sys a' (σ.sys.spawned act) (σ.sys.released act)) :
    ∀ t ∈ a'.run, Placed ch.queue (sys.pc t) (ch.phaseAfter σ act t) := by
  intro t ht
  by_cases hm : t ∈ σ.sys.spawned act
  · rw [phaseAfter_made hm, hcase.made_entry hm]
    exact placed_away (by simp [Pc.foreign]) (by simp [Pc.waitsOn])
  · have htm : t ∈ a.run := by
      rw [hcase.run] at ht
      exact (List.mem_filter.mp ((List.mem_append.mp ht).resolve_right hm)).1
    have hplaced := h.placed t htm
    rcases hcase.moves hm with ⟨call, cond, hact, hh, hc, hleads⟩ | ⟨hpc, hidle⟩
    · have hpoint : σ.sys.point = σ.sys.pc t := by simp only [System.point, hc]
      have hnext := hplaced.leads hleads
        (fun he => hk.call call cond hact (hpoint.trans he)) (hk.seen call cond hact t hc)
      by_cases hcheck : σ.sys.pc t = .waitCheck ch.queue
      · have hchecks : ch.Checks σ act := by
          subst hact
          exact ⟨hh, hpoint.trans hcheck⟩
        rw [phaseAfter_check hchecks hm, mark_self hc]
        rwa [if_pos hcheck, hk.check call cond hact (hpoint.trans hcheck)] at hnext
      · rw [phaseAfter_of_ne hm hcheck]
        rwa [if_neg hcheck] at hnext
    · have hphase : ch.phaseAfter σ act t = σ.phase t := by
        by_cases hchecks : ch.Checks σ act
        · obtain ⟨c, hc, -, hh, call, cond, hact⟩ := hchecks.current
          rw [phaseAfter_check hchecks hm]
          refine mark_of_ne hc ?_
          rintro rfl
          exact hidle call cond hact hh hc
        · exact phaseAfter_rest hchecks hm
      rw [hpc, hphase]
      exact hplaced

/-- The queue grows only by a check that fails. -/
theorem Served.system_wait (h : Served ch Holds σ a n) (hk : ch.Keeps σ act)
    (hcase : StepCase σ.sys a act sys a' (σ.sys.spawned act) (σ.sys.released act))
    (hfound : ch.Checks σ act → ch.hasItem σ.buffer = true) :
    (a'.wait ch.queue).Sublist (a.wait ch.queue) := by
  generalize σ.sys.spawned act = made, σ.sys.released act = gone at hcase
  cases hcase with
  | rest | tick | yield => exact List.Sublist.refl _
  | wake kind queue => exact a.wake_sublist kind queue _
  | thread call cond k control hh =>
    refine a.afterStep_sublist _ ?_ (hk.call call cond rfl) fun hcheck => ?_
    · unfold System.point
      cases hc : σ.sys.kernel.sched.currentThread with
      | none => simp [Pc.foreign]
      | some c => exact (h.placed c (h.inv.base.wf.current c hc)).foreign
    · rw [hk.check call cond rfl hcheck]
      exact hfound ⟨hh, hcheck⟩

/-- Released threads have left the channel, created ones have not reached it. -/
theorem Served.system_tally (h : Served ch Holds σ a n) (hinv : Inv false sys a')
    (hcase : StepCase σ.sys a act sys a' (σ.sys.spawned act) (σ.sys.released act))
    {p : ReaderPhase} (hp : p ≠ .away) :
    tally a'.run (ch.phaseAfter σ act) p = tally a.run (ch.phaseAfter σ act) p := by
  rw [hcase.run]
  refine tally_run (fun t ht hgone => ?_) fun t ht => ?_
  · obtain ⟨dead, -, hdead, hrel⟩ := hcase.dead h.inv.base.wf.rep.nodup
    have htd : t ∈ dead := by
      simpa [hrel, Function.comp_def] using hgone
    have hpc := (h.inv.base.wf.threads t ht).fits.zombie_point (reapable_iff.mp (hdead t htd).2).1
    have hm : t ∉ σ.sys.spawned act := fun hm => hinv.spawned_notMem hcase t hm ht
    rw [phaseAfter_of_ne hm (by simp [hpc]), (h.placed t ht).outside (by simp [hpc, Pc.waitsOn])
      (by simp [hpc])]
    exact Ne.symm hp
  · rw [phaseAfter_made ht]
    exact Ne.symm hp

/-- A linked reader is not at the check, and a reader that joins has just failed it. -/
theorem Served.system_linked (h : Served ch Holds σ a n) (hk : ch.Keeps σ act)
    (hinv : Inv false sys a')
    (hcase : StepCase σ.sys a act sys a' (σ.sys.spawned act) (σ.sys.released act)) :
    ∀ t ∈ a'.wait ch.queue, ch.phaseAfter σ act t = .checking := by
  have hold {t : ThreadPtr} (ht : t ∈ a.wait ch.queue) :
      ch.phaseAfter σ act t = .checking := by
    have htm := h.inv.base.wf.rep.waitSub _ t ht
    have hpc : σ.sys.pc t ≠ .waitCheck ch.queue := fun hpc =>
      h.inv.unlinked htm (.inr hpc) ht
    rw [phaseAfter_of_ne (fun hm => hinv.spawned_notMem hcase t hm htm) hpc]
    exact h.linked t ht
  intro t ht
  by_cases hfound : ch.Checks σ act → ch.hasItem σ.buffer = true
  · exact hold ((h.system_wait hk hcase hfound).subset ht)
  · obtain ⟨hchecks, hnone⟩ := Classical.not_imp.mp hfound
    rcases hcase.waits ch.queue with hsub | ⟨c, hc, happ⟩
    · exact hold (hsub.subset ht)
    · rw [happ, List.mem_append, List.mem_singleton] at ht
      rcases ht with ht | rfl
      · exact hold ht
      · have hcm := h.inv.base.wf.current t hc
        rw [phaseAfter_check hchecks (fun hm => hinv.spawned_notMem hcase t hm hcm), mark_self hc,
          if_neg hnone]

/-- A successful check moves one reader on, and no other step of the system changes how many
are on their way. -/
theorem Served.system_count (h : Served ch Holds σ a n) (hinv : Inv false sys a')
    (hcase : StepCase σ.sys a act sys a' (σ.sys.spawned act) (σ.sys.released act)) :
    (ch.Checks σ act ∧ ch.hasItem σ.buffer = true ∧
      tally a'.run (ch.phaseAfter σ act) .seen = tally a.run σ.phase .seen + 1 ∧
      tally a.run σ.phase .woken ≤ tally a'.run (ch.phaseAfter σ act) .woken + 1) ∨
    tally a'.run (ch.phaseAfter σ act) .seen = tally a.run σ.phase .seen ∧
      (ch.hasItem σ.buffer = true →
        tally a'.run (ch.phaseAfter σ act) .woken = tally a.run σ.phase .woken) := by
  rw [h.system_tally hinv hcase (by simp), h.system_tally hinv hcase (by simp)]
  have hm {t : ThreadPtr} (ht : t ∈ a.run) : t ∉ σ.sys.spawned act := fun hm =>
    hinv.spawned_notMem hcase t hm ht
  by_cases hchecks : ch.Checks σ act
  · obtain ⟨c, hc, hpc, -⟩ := hchecks.current
    have hcm := h.inv.base.wf.current c hc
    have hunseen : σ.phase c ≠ .seen := fun hs => by
      have hentry := (h.placed c hcm).seen hs
      rw [hpc] at hentry
      cases hentry
    let next : ReaderPhase := if ch.hasItem σ.buffer then .seen else .checking
    have hnext (p : ReaderPhase) : tally a.run (ch.phaseAfter σ act) p =
        tally a.run (Channel.mark σ next) p :=
      tally_congr fun t ht => phaseAfter_check hchecks (hm ht)
    have hself : Channel.mark σ next c = next := mark_self hc
    have hother (t : ThreadPtr) (ht : t ≠ c) : Channel.mark σ next t = σ.phase t :=
      mark_of_ne hc ht
    have hseen := h.tally_moved hcm hother .seen
    have hwoken := h.tally_moved hcm hother .woken
    rw [hself] at hseen hwoken
    rw [hnext, hnext]
    rw [if_neg hunseen, Nat.add_zero] at hseen
    cases hitem : ch.hasItem σ.buffer with
    | true =>
      have hval : next = .seen := by simp [next, hitem]
      rw [hval] at hseen hwoken ⊢
      simp only [↓reduceIte, reduceCtorEq, Nat.add_zero] at hseen hwoken
      refine .inl ⟨hchecks, rfl, hseen, ?_⟩
      split at hwoken <;> omega
    | false =>
      have hval : next = .checking := by simp [next, hitem]
      rw [hval] at hseen ⊢
      simp only [reduceCtorEq, ↓reduceIte, Nat.add_zero] at hseen
      exact .inr ⟨hseen, by simp⟩
  · have hsame (p : ReaderPhase) : tally a.run (ch.phaseAfter σ act) p = tally a.run σ.phase p :=
      tally_congr fun t ht => phaseAfter_rest hchecks (hm ht)
    exact .inr ⟨hsame _, fun _ => hsame _⟩

end

theorem Served.system (hl : ch.Lawful Holds Good) (h : Served ch Holds σ a n) {act : Action}
    (hadm : ch.Admissible σ (.system act)) (hs : ch.step σ (.system act) = .ok σ') :
    ∃ a', Served ch Holds σ' a' n ∧ σ'.results = σ.results ∧
      (tally a'.run σ'.phase .seen = tally a.run σ.phase .seen ∨
        ch.Checks σ act ∧ ch.hasItem σ.buffer = true ∧
          tally a'.run σ'.phase .seen = tally a.run σ.phase .seen + 1) := by
  obtain ⟨sys, hstep, rfl⟩ := map_ok hs
  have hk := hadm.keeps
  obtain ⟨a', hinv, hcase⟩ := h.inv.step_cases hk.fresh hstep
  have hcount := h.system_count hinv hcase
  refine ⟨a', ⟨hinv, h.holds, h.system_placed hk hcase, h.system_linked hk hinv hcase,
    fun hne => ?_⟩, rfl, ?_⟩
  · -- A check that fails finds nothing to wake anybody for.
    cases hitem : ch.hasItem σ.buffer with
    | false =>
      have hzero : ¬ 0 < n := fun hpos => by
        rw [(hl.hasItem h.holds).mpr hpos] at hitem
        cases hitem
      omega
    | true =>
      have hsub := h.system_wait hk hcase fun _ => hitem
      have henough := h.enough fun hnil => hne (List.sublist_nil.mp (hnil ▸ hsub))
      rcases hcount with ⟨-, -, hseen, hwoken⟩ | ⟨hseen, hwoken⟩
      · exact henough.trans (by simp only [hseen]; omega)
      · exact henough.trans (by simp only [hseen, hwoken hitem]; omega)
  · rcases hcount with ⟨hchecks, hitem, hseen, -⟩ | ⟨hseen, -⟩
    · exact .inr ⟨Channel.checks_condition.mp hchecks, hitem, hseen⟩
    · exact .inl hseen

/-- The call of `wait_queue_wait` goes to its first check. -/
theorem Inv.enters_wait {σ sys : System} (h : Inv false σ a) {q : QueuePtr}
    (hc : σ.kernel.sched.currentThread = some c) (hidle : σ.kernel.sched.idleThread ≠ some c)
    (hpc : σ.pc c = .entry) (hs : σ.step (.thread (.wait (some q) true) false) = .ok sys) :
    sys = ⟨σ.kernel, Function.update σ.pc c (.waitCheck q)⟩ ∧ Inv false sys a := by
  have hsys : sys = ⟨σ.kernel, Function.update σ.pc c (.waitCheck q)⟩ := by
    have hrun : σ.halted = false := System.halted_iff.mpr fun c' hc' => by
      rw [hc] at hc'
      rwa [← Option.some.inj hc']
    simp only [System.step, hrun, Bool.false_eq_true, ↓reduceIte] at hs
    obtain ⟨⟨k, control⟩, hstep, hfin⟩ := bind_ok hs
    have hpoint : σ.point = .entry := by simp only [System.point, hc, hpc]
    simp only [hpoint, threadStep, beginCall, hc, Bool.true_eq_false, reduceCtorEq, or_self,
      ↓reduceIte] at hstep
    obtain ⟨_, -, hret⟩ := bind_ok hstep
    obtain ⟨rfl, rfl⟩ := Prod.mk.inj (Except.ok.inj hret)
    simp only [System.finish, movePc, hc, Control.pc] at hfin
    exact (Except.ok.inj hfin).symm
  have hfresh : Sched.Admissible σ (.thread (.wait (some q) true) false) := trivial
  obtain ⟨a', hinv⟩ := h.step hfresh (by simp) hs
  refine ⟨hsys, ?_⟩
  have hrep := hinv.base.wf.rep
  rw [hsys] at hrep
  rwa [h.base.wf.rep.unique hrep]

/-- A reader comes to the check. -/
theorem Served.read (h : Served ch Holds σ a n) (hadm : ch.Admissible σ .read)
    (hs : ch.step σ .read = .ok σ') : Served ch Holds σ' a n ∧ σ'.results = σ.results ∧
      tally a.run σ'.phase .seen = tally a.run σ.phase .seen := by
  obtain ⟨c, hc, hidle, hpc, hphase⟩ := hadm
  obtain ⟨sys, hstep, rfl⟩ := map_ok hs
  obtain ⟨rfl, hinv⟩ := h.inv.enters_wait hc hidle hpc hstep
  have hcm := h.inv.base.wf.current c hc
  have hself : Channel.mark σ .checking c = .checking := mark_self hc
  have hother (t : ThreadPtr) (ht : t ≠ c) : Channel.mark σ .checking t = σ.phase t :=
    mark_of_ne hc ht
  have hseen := h.tally_moved hcm hother .seen
  have hwoken := h.tally_moved hcm hother .woken
  simp only [hphase, hself, reduceCtorEq, ↓reduceIte, Nat.add_zero] at hseen hwoken
  have hplaced : Placed ch.queue (Function.update σ.sys.pc c (.waitCheck ch.queue) c)
      (Channel.mark σ .checking c) := by
    rw [hself, Function.update_self]
    exact placed_inside rfl (.inl rfl)
  refine ⟨⟨hinv, h.holds, h.placed_moved (fun _ ht => Function.update_of_ne ht _ _) hother hplaced,
    h.linked_moved hother (h.inv.unlinked hcm (.inl hpc)), fun hne => ?_⟩, rfl, hseen⟩
  simp only [hseen, hwoken]
  exact h.enough hne

/-! ### Runs -/

theorem Channel.Initial.served {start : β → Prop} (hstart : ∀ b, start b → Holds b 0)
    (hi : Channel.Initial start σ) : ∃ run, Served ch Holds σ ⟨run, fun _ => []⟩ 0 ∧
      tally run σ.phase .seen = 0 := by
  obtain ⟨⟨run, hsys⟩, hb, hphase, -⟩ := hi
  refine ⟨run, ⟨hsys.inv, hstart _ hb, fun t ht => ?_, by simp, by simp⟩, ?_⟩
  · rw [hphase, hsys.entry t ht]
    exact placed_away (by simp [Pc.foreign]) (by simp [Pc.waitsOn])
  · simp [tally, hphase]

/-- How a step changes the number of items and of readers that have seen one. -/
inductive Turnover (ch : Channel β ι ρ γ) (Good : γ → Prop) (σ σ' : ChannelState β γ) :
    ChannelAction ι ρ → (items seen items' seen' : ℕ) → Prop
  | still {act : ChannelAction ι ρ} {n m n' : ℕ} : n ≤ n' → σ'.results = σ.results →
      Turnover ch Good σ σ' act n m n' m
  | see {act : Action} {n m : ℕ} : ch.Checks σ act → ch.hasItem σ.buffer = true →
      σ'.results = σ.results → Turnover ch Good σ σ' (.system act) n m n (m + 1)
  | take {x : ρ} {n m : ℕ} (c : ThreadPtr) (r : γ) : (0 < n → Good r) →
      σ'.results = σ.results ++ [(c, r)] → Turnover ch Good σ σ' (.pop x) n (m + 1) (n - 1) m
  | steal {x : ρ} {n m : ℕ} : σ'.results = σ.results →
      Turnover ch Good σ σ' (.tryRead x) n m (n - 1) m

theorem Served.step (hl : ch.Lawful Holds Good) (h : Served ch Holds σ a n)
    {act : ChannelAction ι ρ} (hadm : ch.Admissible σ act) (hs : ch.step σ act = .ok σ') :
    ∃ a' n', Served ch Holds σ' a' n' ∧ Turnover ch Good σ σ' act n
      (tally a.run σ.phase .seen) n' (tally a'.run σ'.phase .seen) := by
  cases act with
  | system act =>
    obtain ⟨a', hserved, hres, hseen | ⟨hchecks, hitem, hseen⟩⟩ := h.system hl hadm hs
    · exact ⟨a', n, hserved, hseen ▸ .still (Nat.le_refl n) hres⟩
    · exact ⟨a', n, hserved, hseen ▸ .see hchecks hitem hres⟩
  | read =>
    obtain ⟨hserved, hres, hseen⟩ := h.read hadm hs
    exact ⟨a, n, hserved, hseen ▸ .still (Nat.le_refl n) hres⟩
  | pop x =>
    obtain ⟨hserved, hseen, c, r, hres, hgood⟩ := h.pop hl hadm hs
    exact ⟨a, n - 1, hserved, hseen ▸ .take c r hgood hres⟩
  | tryRead x =>
    obtain ⟨hserved, hphase, hres⟩ := h.tryRead hl hs
    exact ⟨a, n - 1, hserved, hphase ▸ .steal hres⟩
  | put x =>
    obtain ⟨a', n', hle, hrun, hserved, hseen, hres⟩ := h.put hl hadm hs
    rw [← hrun] at hseen ⊢
    exact ⟨a', n', hserved, hseen ▸ .still hle hres⟩

theorem Channel.Reachable.served {start : β → Prop}
    {ok : ChannelState β γ → ChannelAction ι ρ → Prop} (hl : ch.Lawful Holds Good)
    (hstart : ∀ b, start b → Holds b 0) (h : ch.Reachable start ok σ) :
    ∃ a n, Served ch Holds σ a n := by
  refine Reach.invariant (I := fun σ => ∃ a n, Served ch Holds σ a n) h (fun σ hi => ?_) ?_
  · obtain ⟨run, hserved, -⟩ := hi.served hstart
    exact ⟨_, 0, hserved⟩
  · rintro σ act σ' ⟨a, n, hserved⟩ ⟨hadm, -⟩ hs
    obtain ⟨a', n', hserved', -⟩ := hserved.step hl hadm hs
    exact ⟨a', n', hserved'⟩

/-- While a reader is linked there are enough readers on their way: woken and not yet back at
the check, or behind it and not yet at the removal. -/
def Channel.Awaited (ch : Channel β ι ρ γ) (σ : ChannelState β γ) (items : ℕ) : Prop :=
  ∀ run waiting, Path σ.sys.kernel.sched.links σ.sys.kernel.sched.runQueueHead run none →
    Path σ.sys.kernel.sched.waitLinks (σ.sys.kernel.sched.queue ch.queue).head waiting none →
    waiting ≠ [] → items ≤ tally run σ.phase .woken + tally run σ.phase .seen

theorem Channel.Reachable.awaited {start : β → Prop}
    {ok : ChannelState β γ → ChannelAction ι ρ → Prop} (hl : ch.Lawful Holds Good)
    (hstart : ∀ b, start b → Holds b 0) (h : ch.Reachable start ok σ) :
    ∃ n, Holds σ.buffer n ∧ ch.Awaited σ n := by
  obtain ⟨a, n, hserved⟩ := h.served hl hstart
  have hrep := hserved.inv.base.wf.rep
  refine ⟨n, hserved.holds, fun run waiting hrun hwaiting hne => ?_⟩
  obtain rfl := path_unique hrep.run hrun
  obtain rfl := path_unique (hrep.wait ch.queue) hwaiting
  exact hserved.enough hne

/-- More items are queued than readers have seen the condition and not yet taken theirs. -/
def Channel.Spare (count : β → ℕ) (σ : ChannelState β γ) : Prop :=
  ∀ run, Path σ.sys.kernel.sched.links σ.sys.kernel.sched.runQueueHead run none →
    tally run σ.phase .seen < count σ.buffer

/-- Nobody goes for an item that another reader has seen: a check succeeds, and a non-blocking
read finds something, only when there is an item to spare. -/
def Channel.InTurn (ch : Channel β ι ρ γ) (count : β → ℕ) (σ : ChannelState β γ) :
    ChannelAction ι ρ → Prop
  | .system act => ch.Checks σ act → ch.hasItem σ.buffer = true → Spare count σ
  | .tryRead _ => ch.hasItem σ.buffer = true → Spare count σ
  | _ => True

/-- Every reader that has seen an item finds one. -/
structure Claimed (ch : Channel β ι ρ γ) (Holds : β → ℕ → Prop) (Good : γ → Prop)
    (σ : ChannelState β γ) (a : Shape) (n : ℕ) : Prop where
  served : Served ch Holds σ a n
  seen : tally a.run σ.phase .seen ≤ n
  good : ∀ r ∈ σ.results, Good r.2

theorem Claimed.step {count : β → ℕ} (hcount : ∀ b n, Holds b n → count b = n)
    (hl : ch.Lawful Holds Good) (h : Claimed ch Holds Good σ a n) {act : ChannelAction ι ρ}
    (hadm : ch.Admissible σ act) (hturn : ch.InTurn count σ act)
    (hs : ch.step σ act = .ok σ') : ∃ a' n', Claimed ch Holds Good σ' a' n' := by
  obtain ⟨a', n', hserved, hturnover⟩ := h.served.step hl hadm hs
  have hspare (hspare : Channel.Spare count σ) : tally a.run σ.phase .seen < n := by
    rw [← hcount _ _ h.served.holds]
    exact hspare _ h.served.inv.base.wf.rep.run
  have hseen := h.seen
  suffices hnext : tally a'.run σ'.phase .seen ≤ n' ∧ ∀ r ∈ σ'.results, Good r.2 from
    ⟨a', n', hserved, hnext.1, hnext.2⟩
  generalize tally a.run σ.phase .seen = m, tally a'.run σ'.phase .seen = m' at *
  cases hturnover with
  | still hle hres =>
    rw [hres]
    exact ⟨hseen.trans hle, h.good⟩
  | see hchecks hitem hres =>
    rw [hres]
    exact ⟨hspare (hturn hchecks hitem), h.good⟩
  | take c r hgood hres =>
    refine ⟨by omega, fun x hx => ?_⟩
    rw [hres, List.mem_append, List.mem_singleton] at hx
    rcases hx with hx | rfl
    · exact h.good x hx
    · exact hgood (by omega)
  | steal hres =>
    rw [hres]
    refine ⟨?_, h.good⟩
    by_cases hpos : 0 < n
    · have := hspare (hturn ((hl.hasItem h.served.holds).mpr hpos))
      omega
    · omega

/-- A blocking read gets an item in every run in which the readers keep out of each other's
way. -/
theorem Channel.Reachable.good {start : β → Prop} {count : β → ℕ}
    (hcount : ∀ b n, Holds b n → count b = n) (hl : ch.Lawful Holds Good)
    (hstart : ∀ b, start b → Holds b 0) (h : ch.Reachable start (ch.InTurn count) σ) :
    ∀ r ∈ σ.results, Good r.2 := by
  have hclaimed : ∃ a n, Claimed ch Holds Good σ a n := by
    refine Reach.invariant (I := fun σ => ∃ a n, Claimed ch Holds Good σ a n) h
      (fun σ hi => ?_) ?_
    · obtain ⟨run, hserved, hseen⟩ := hi.served hstart
      exact ⟨_, 0, hserved, hseen.le, by simp [hi.2.2.2]⟩
    · rintro σ act σ' ⟨a, n, hc⟩ ⟨hadm, hturn⟩ hs
      exact hc.step hcount hl hadm hturn hs
  obtain ⟨a, n, hc⟩ := hclaimed
  exact hc.good

end

end Tianole.Sched
