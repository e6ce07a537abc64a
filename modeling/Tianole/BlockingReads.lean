import Tianole.Input.EventQueue
import Tianole.Tty.LineQueue
import Tianole.Work.Workqueue

/-! The three queues that are read with `wait_queue_wait` and filled with
`wait_queue_wake_one_locked`: input events, terminal lines and work items. -/
namespace Tianole
open Links Runs Sched Input Tty Work

/-! ### The workqueue -/

/-- Callers initialise items and queue them. -/
inductive WorkRequest where
  | init (w : WorkPtr) (func : Option ℕ)
  | queue (work : Option WorkPtr)
  deriving DecidableEq, Repr

/-- `queue_work` and the worker on the wait queue `wait`; the pops of the worker after its
first one do not wait. An item is not initialised while it is on the list. -/
def workChannel (wait : QueuePtr) : Channel Workqueue WorkRequest Unit (Option WorkPtr) where
  queue := wait
  hasItem := workqueueHasWork
  allows
    | q, .init w _ => ∀ l, Path q.links q.head l none → w ∉ l
    | _, .queue _ => True
  put
    | q, .init w func => (workInit q (some w) func, false)
    | q, .queue work => ((queueWork q work).1, decide ((queueWork q work).2 = 0))
  take q _ := workqueuePop q

/-- The state in which `workqueue_init` leaves the queue; the memory of the items is
arbitrary. -/
def WorkqueueStarted (q : Workqueue) : Prop :=
  q.head = none ∧ q.tail = none ∧ q.initialized = true

/-- The list is in order and has `n` items, all of them pending. -/
def WorkqueueHolds (q : Workqueue) (n : ℕ) : Prop :=
  ∃ l, Listed q l ∧ l.length = n ∧ ∀ w ∈ l, (q.work w).pending = true

section
variable {q : Workqueue} {n : ℕ}

/-- `queue_work` refuses and changes nothing, or links an idle item. -/
theorem queueWork_cases (q : Workqueue) (work : Option WorkPtr) :
    (queueWork q work).1 = q ∧ (queueWork q work).2 ≠ 0 ∨
      ∃ w, (q.work w).pending ≠ true ∧ queueWork q work = (appendWork q w, 0) := by
  by_cases hready : q.initialized = false
  · exact .inl (by simp [queueWork, hready, Errno.inval])
  · cases work with
    | none => exact .inl (by simp [queueWork, hready, Errno.inval])
    | some w =>
      by_cases hfunc : (q.work w).func = none
      · exact .inl (by simp [queueWork, hready, hfunc, Errno.inval])
      · by_cases hpending : (q.work w).pending = true
        · exact .inl (by simp [queueWork, hready, hfunc, hpending, Errno.busy])
        · exact .inr ⟨w, hpending, by simp [queueWork, hready, hfunc, hpending]⟩

theorem WorkqueueHolds.queue (h : WorkqueueHolds q n) (work : Option WorkPtr) :
    WorkqueueHolds (queueWork q work).1 (if (queueWork q work).2 = 0 then n + 1 else n) := by
  rcases queueWork_cases q work with ⟨hsame, hret⟩ | ⟨w, hidle, heq⟩
  · rwa [hsame, if_neg hret]
  · -- An idle item is not on the list, since those are pending.
    obtain ⟨l, hl, hn, hpending⟩ := h
    have hw : w ∉ l := fun hm => hidle (hpending w hm)
    rw [heq]
    refine ⟨l ++ [w], appendWork_listed hl hw, by simp [hn], fun u hu => ?_⟩
    rw [(appendWork_work u).1]
    rcases List.mem_append.mp hu with hu | hu
    · simp [hpending u hu]
    · simp [List.mem_singleton.mp hu]

theorem WorkqueueHolds.init (h : WorkqueueHolds q n) {w : WorkPtr} (func : Option ℕ)
    (hw : ∀ l, Path q.links q.head l none → w ∉ l) :
    WorkqueueHolds (workInit q (some w) func) n := by
  obtain ⟨l, hl, hn, hpending⟩ := h
  have hnot := hw l hl.path
  refine ⟨l, ⟨?_, hl.tail⟩, hn, fun u hu => ?_⟩
  · simp only [workInit]
    rw [Workqueue.links_modify]
    exact (path_update hnot).mpr hl.path
  · have hne : u ≠ w := fun he => hnot (he ▸ hu)
    simp only [workInit, Workqueue.modify_work, hne, ↓reduceIte]
    exact hpending u hu

theorem WorkqueueHolds.pop (h : WorkqueueHolds q (n + 1)) :
    WorkqueueHolds (workqueuePop q).1 n ∧ ∃ w, (workqueuePop q).2 = some w := by
  obtain ⟨l, hl, hn, hpending⟩ := h
  cases l with
  | nil => cases hn
  | cons w l =>
    obtain ⟨q', hpop, hl', -, hwork⟩ := workqueuePop_cons hl
    rw [hpop]
    refine ⟨⟨l, hl', Nat.succ.inj hn, fun u hu => ?_⟩, w, rfl⟩
    have hne : u ≠ w := fun he => (List.nodup_cons.mp hl.nodup).1 (he ▸ hu)
    rw [(hwork u).1]
    simp [hne, hpending u (List.mem_cons_of_mem w hu)]

theorem workChannel_lawful (wait : QueuePtr) :
    (workChannel wait).Lawful WorkqueueHolds fun r => ∃ w, r = some w where
  hasItem h := by
    obtain ⟨l, hl, rfl, -⟩ := h
    have hhead := path_head hl.path
    cases l <;> simp [workChannel, workqueueHasWork, hhead]
  put h request hadm := by
    cases request with
    | init w func => exact h.init func hadm
    | queue work => simpa only [workChannel, decide_eq_true_eq] using h.queue work
  take_zero h _ := by
    obtain ⟨l, hl, hn, hpending⟩ := h
    obtain rfl := List.length_eq_zero_iff.mp hn
    simp only [workChannel, workqueuePop_nil hl]
    exact ⟨[], hl, rfl, hpending⟩
  take_succ h _ := h.pop

theorem WorkqueueStarted.holds (h : WorkqueueStarted q) : WorkqueueHolds q 0 :=
  ⟨[], ⟨h.1, h.2.1⟩, rfl, by simp⟩

end

/-! ### No wakeup is lost -/

/-- In every state in which a reader is linked, at most as many items are queued as readers
are on their way: unlinked by a wakeup and not yet back at the check, or behind a check that
succeeded and not yet at the removal. -/
theorem no_lost_wakeup (wait : QueuePtr) :
    (∀ σ, (inputChannel wait).Reachable InputQueue.Started (fun _ _ => True) σ →
      (inputChannel wait).Awaited σ σ.buffer.events.count) ∧
    (∀ σ, (ttyChannel wait).Reachable Terminal.Started (fun _ _ => True) σ →
      (ttyChannel wait).Awaited σ σ.buffer.lines.count) ∧
    ∀ σ, (workChannel wait).Reachable WorkqueueStarted (fun _ _ => True) σ →
      ∃ l, Path σ.buffer.links σ.buffer.head l none ∧
        (workChannel wait).Awaited σ l.length := by
  refine ⟨fun σ h => ?_, fun σ h => ?_, fun σ h => ?_⟩
  · obtain ⟨n, hn, hawaited⟩ := h.awaited (inputChannel_lawful wait) fun _ hs => hs.holds
    rwa [hn.count]
  · obtain ⟨n, hn, hawaited⟩ := h.awaited (ttyChannel_lawful wait) fun _ hs => hs.holds
    rwa [hn.count]
  · obtain ⟨n, ⟨l, hl, rfl, -⟩, hawaited⟩ :=
      h.awaited (workChannel_lawful wait) fun _ hs => hs.holds
    exact ⟨l, hl.path, hawaited⟩

/-! Runs with three threads, of which the first is the idle one, on the wait queue 5. -/

/-- A kernel with the given buffer in which nobody has read. -/
def bootState {β γ : Type} (objects : List ThreadPtr) (idle : ThreadPtr) (b : β) :
    ChannelState β γ :=
  ⟨System.boot objects idle, b, fun _ => .away, []⟩

theorem bootState_reachable {β ι ρ γ : Type} (ch : Channel β ι ρ γ) {start : β → Prop}
    (ok : ChannelState β γ → ChannelAction ι ρ → Prop) (objects : List ThreadPtr)
    (idle : ThreadPtr) {b : β} (hn : objects.Nodup) (hi : idle ∈ objects) (hb : start b) :
    ch.Reachable start ok (bootState objects idle b) :=
  .start ⟨⟨objects, boot_initial hn hi⟩, hb, rfl, rfl⟩

def keyEvent : InputEvent := ⟨1, 30, 1, 0, 1, 0⟩

/-- The input queue after `input_init`. -/
def freshInputQueue : InputQueue :=
  inputInit ⟨.empty fun _ => keyEvent, 0, keyEvent, false, false⟩

theorem freshInputQueue_started : freshInputQueue.Started := ⟨_, rfl, rfl⟩

/-- A step of the running thread outside the calls of the model, or inside one of them. -/
def go {ι ρ : Type} : ChannelAction ι ρ := .system (.thread .yield false)

/-- Both readers block before the event is reported. -/
theorem no_lost_wakeup_two_readers : ∃ σ : ChannelState InputQueue (Except ℤ InputEvent),
    Path σ.sys.kernel.sched.waitLinks (σ.sys.kernel.sched.queue 5).head [3] none ∧
      σ.buffer.events.count = 1 ∧
      1 ≤ tally [1, 2, 3] σ.phase .woken + tally [1, 2, 3] σ.phase .seen := by
  obtain ⟨σ, hreach, hb⟩ := Reach.admitted_map (b := true)
    (f := fun σ : ChannelState InputQueue (Except ℤ InputEvent) => decide
      (Path σ.sys.kernel.sched.links σ.sys.kernel.sched.runQueueHead [1, 2, 3] none ∧
        Path σ.sys.kernel.sched.waitLinks (σ.sys.kernel.sched.queue 5).head [3] none ∧
        σ.buffer.events.count = 1))
    (bootState_reachable (inputChannel 5) (fun _ _ => True) [1, 2, 3] 1 (by decide) (by decide)
      freshInputQueue_started)
    [go, .read, go, go, .read, go, go, .put (some keyEvent)] (by decide)
  obtain ⟨hrun, hwait, hcount⟩ := of_decide_eq_true hb
  have hawaited := (no_lost_wakeup 5).1 σ hreach _ _ hrun hwait (by simp)
  rw [hcount] at hawaited
  exact ⟨σ, hwait, hcount, hawaited⟩

/-! ### Blocking reads -/

/-- In a run in which nobody goes for an item that another reader has seen, every blocking
read gets its data. -/
theorem blocking_reads_get_data (wait : QueuePtr) :
    (∀ σ, (inputChannel wait).Reachable InputQueue.Started
        ((inputChannel wait).InTurn fun q => q.events.count) σ →
      ∀ r ∈ σ.results, ∃ event, r.2 = .ok event) ∧
    ∀ σ, (ttyChannel wait).Reachable Terminal.Started
        ((ttyChannel wait).InTurn fun t => t.lines.count) σ →
      ∀ r ∈ σ.results, 0 ≤ r.2.1 :=
  ⟨fun _ h => h.good (fun _ _ hn => hn.count) (inputChannel_lawful wait) fun _ hs => hs.holds,
    fun _ h => h.good (fun _ _ hn => hn.count) (ttyChannel_lawful wait) fun _ hs => hs.holds⟩

/-- A check of `InTurn` for a state whose run queue is known. -/
def inTurnOn (run : List ThreadPtr) (σ : ChannelState InputQueue (Except ℤ InputEvent)) :
    ChannelAction (Option InputEvent) Unit → Bool
  | .pop _ => true
  | _ => decide (σ.buffer.events.count ≠ 0 →
      Path σ.sys.kernel.sched.links σ.sys.kernel.sched.runQueueHead run none ∧
        tally run σ.phase .seen < σ.buffer.events.count)

theorem inTurn_of_inTurnOn {wait : QueuePtr} {run : List ThreadPtr}
    {σ : ChannelState InputQueue (Except ℤ InputEvent)}
    {act : ChannelAction (Option InputEvent) Unit} (h : inTurnOn run σ act = true) :
    (inputChannel wait).InTurn (fun q => q.events.count) σ act := by
  have hspare (hon : σ.buffer.events.count ≠ 0 →
      Path σ.sys.kernel.sched.links σ.sys.kernel.sched.runQueueHead run none ∧
        tally run σ.phase .seen < σ.buffer.events.count)
      (hitem : (inputChannel wait).hasItem σ.buffer = true) :
      Channel.Spare (fun q : InputQueue => q.events.count) σ := by
    obtain ⟨hrun, hlt⟩ := hon (by simpa [inputChannel, inputHasEvent] using hitem)
    intro l hl
    rwa [← path_unique hrun hl]
  cases act with
  | system act => exact fun _ => hspare (of_decide_eq_true h)
  | tryRead x => exact hspare (of_decide_eq_true h)
  | read | pop _ | put _ => trivial

/-- One reader and one event. -/
theorem blocking_reads_get_data_one : ∃ σ : ChannelState InputQueue (Except ℤ InputEvent),
    σ.results = [(2, .ok keyEvent)] ∧ ∀ r ∈ σ.results, ∃ event, r.2 = .ok event := by
  obtain ⟨σ, hreach, hresults⟩ := Reach.admitted_map (f := fun σ => σ.results)
    (b := [(2, .ok keyEvent)])
    (bootState_reachable (inputChannel 5) (fun σ act => inTurnOn [1, 2] σ act = true) [1, 2] 1
      (by decide) (by decide) freshInputQueue_started)
    [go, .read, go, go, .put (some keyEvent), .system .tick, .system .irqExit, go, go, .pop ()]
    (by rfl)
  refine ⟨σ, hresults, (blocking_reads_get_data 5).1 σ (hreach.mono fun _ _ hok => ?_)⟩
  exact ⟨hok.1, inTurn_of_inTurnOn hok.2⟩

/-- The second reader sees the only item after the first one has, and takes it. -/
def overtaking {ι ρ : Type} (x : ι) (arg : ρ) : List (ChannelAction ι ρ) :=
  [go, .put x, .read, go, .system .tick, .system .irqExit, .read, go, .pop arg, go, .pop arg]

/-- The terminal after `tty_init`. -/
def freshTerminal : Terminal := ttyInit ⟨.empty fun _ => ⟨fun _ => 0, 0⟩, 0, fun _ => 0, 0, false⟩

theorem blocking_reads_fail :
    (∃ σ, (inputChannel 5).Reachable InputQueue.Started (fun _ _ => True) σ ∧
      (2, .error (-Errno.again)) ∈ σ.results) ∧
    ∃ σ, (ttyChannel 5).Reachable Terminal.Started (fun _ _ => True) σ ∧
      (2, -Errno.again, []) ∈ σ.results := by
  constructor
  · obtain ⟨σ, hreach, hresults⟩ := Reach.admitted_map (f := fun σ => σ.results)
      (b := [(3, .ok keyEvent), (2, .error (-Errno.again))])
      (bootState_reachable (inputChannel 5) (fun _ _ => True) [1, 2, 3] 1 (by decide) (by decide)
        freshInputQueue_started) (overtaking (some keyEvent) ()) (by rfl)
    exact ⟨σ, hreach, by simp [hresults]⟩
  · obtain ⟨σ, hreach, hresults⟩ := Reach.admitted_map (f := fun σ => σ.results)
      (b := [(3, 0, [0]), (2, -Errno.again, [])])
      (bootState_reachable (ttyChannel 5) (fun _ _ => True) [1, 2, 3] 1 (by decide) (by decide)
        ⟨_, rfl, rfl⟩ : (ttyChannel 5).Reachable Terminal.Started _ (bootState _ _ freshTerminal))
      (overtaking .submit ⟨1, Nat.one_pos⟩) (by decide +kernel)
    exact ⟨σ, hreach, by simp [hresults]⟩

end Tianole
