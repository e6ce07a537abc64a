import Tianole.Sched.Selection

/-! What the run-queue operations of `kernel/sched/core.c` do to the lists. -/
namespace Tianole.Sched
open Links

section
variable {s s' : Scheduler} {a : Shape} {t : ThreadPtr}

/-! ### Appending -/

theorem enqueueThread_of_empty (h : s.runQueueTail = none) : enqueueThread s t =
    { s.setNext t none with runQueueHead := some t, runQueueTail := some t } := by
  have h' : (s.setNext t none).runQueueTail = none := h
  simp only [enqueueThread, h']

theorem enqueueThread_of_tail {b : ThreadPtr} (h : s.runQueueTail = some b) :
    enqueueThread s t =
      { (s.setNext t none).setNext b (some t) with runQueueTail := some t } := by
  have h' : (s.setNext t none).runQueueTail = some b := h
  simp only [enqueueThread, h']

theorem enqueueThread_run {l : List ThreadPtr} (hp : Path s.links s.runQueueHead l none)
    (ht : s.runQueueTail = l.getLast?) (hm : t ∉ l) :
    Path (enqueueThread s t).links (enqueueThread s t).runQueueHead (l ++ [t]) none ∧
      (enqueueThread s t).runQueueTail = (l ++ [t]).getLast? := by
  rcases List.eq_nil_or_concat l with rfl | ⟨l, b, rfl⟩
  · rw [enqueueThread_of_empty ht]
    refine ⟨⟨rfl, ?_⟩, rfl⟩
    change (s.setNext t none).links t = none
    simp
  · have hb : s.runQueueTail = some b := by simpa using ht
    rw [enqueueThread_of_tail hb]
    refine ⟨?_, by simp⟩
    change Path ((s.setNext t none).setNext b (some t)).links s.runQueueHead _ none
    rw [Scheduler.links_setNext, Scheduler.links_setNext]
    simpa using path_concat (by simpa using hp) (by simpa using hm)

theorem enqueueThread_skeleton : (enqueueThread s t).skeleton = s.skeleton := by
  cases h : s.runQueueTail with
  | none => rw [enqueueThread_of_empty h]; exact skeleton_setNext s t none
  | some b =>
    rw [enqueueThread_of_tail h]
    exact (skeleton_setNext _ b (some t)).trans (skeleton_setNext s t none)

theorem enqueueThread_waitLinks : (enqueueThread s t).waitLinks = s.waitLinks := by
  cases h : s.runQueueTail with
  | none => rw [enqueueThread_of_empty h]; exact s.waitLinks_setNext t none
  | some b =>
    rw [enqueueThread_of_tail h]
    exact (Scheduler.waitLinks_setNext _ b (some t)).trans (s.waitLinks_setNext t none)

theorem enqueueThread_queue : (enqueueThread s t).queue = s.queue := by
  cases h : s.runQueueTail with
  | none => rw [enqueueThread_of_empty h]; rfl
  | some b => rw [enqueueThread_of_tail h]; rfl

/-! ### Expired sleepers -/

/-- A timer pass over the listed threads. -/
def Scheduler.wakeExpired (s : Scheduler) (tick : ℕ) (l : List ThreadPtr) : Scheduler :=
  { s with thread := fun t =>
      if t ∈ l ∧ (s.thread t).state = .sleeping ∧ (s.thread t).wakeTick ≤ tick then
        { s.thread t with state := .ready, wakeTick := 0 }
      else s.thread t }

theorem wakeExpired_cons {tick : ℕ} {l : List ThreadPtr} (ht : t ∉ l) :
    s.wakeExpired tick (t :: l) =
      if (s.thread t).state = .sleeping ∧ (s.thread t).wakeTick ≤ tick then
        (s.withState t .ready 0).wakeExpired tick l
      else s.wakeExpired tick l := by
  split
  next hs =>
    simp only [Scheduler.wakeExpired, Scheduler.withState, Scheduler.modifyThread]
    congr 1
    funext u
    by_cases hu : u = t
    · subst hu; simp [hs, ht]
    · simp [hu]
  next hs =>
    simp only [Scheduler.wakeExpired]
    congr 1
    funext u
    by_cases hu : u = t
    · subst hu; simp [hs, ht]
    · simp [hu]

theorem wakeWalk_eq {tick n : ℕ} {p : Option ThreadPtr} {l : List ThreadPtr}
    (h : Path s.links p l none) (hn : l.length ≤ n) :
    wakeWalk tick n s p = .ok (s.wakeExpired tick l) := by
  induction l generalizing s p n with
  | nil =>
    obtain rfl : p = none := h
    cases n <;> simp [wakeWalk, Scheduler.wakeExpired]
  | cons t l ih =>
    have ht := (List.nodup_cons.mp (path_nodup h)).1
    obtain ⟨rfl, hp⟩ := h
    obtain ⟨n, rfl⟩ : ∃ m, n = m + 1 := ⟨n - 1, by simp at hn; omega⟩
    have hn' : l.length ≤ n := by simpa using hn
    rw [wakeExpired_cons ht]
    by_cases hs : (s.thread t).state = .sleeping ∧ (s.thread t).wakeTick ≤ tick
    · have hset : threadSetReady s (some t) = .ok (s.withState t .ready 0) := by
        rw [threadSetReady, threadSetWith_some]
        simp [hs.1, threadStateTransitionIsValid]
      have hnext : ((s.withState t .ready 0).thread t).next = s.links t :=
        congrFun (withState_links s t .ready 0) t
      rw [if_pos hs, wakeWalk]
      simp only [threadIsSleeping, Option.any_some, hs, decide_true,
        Bool.and_self, ↓reduceIte, hset, bind, Except.bind, hnext]
      exact ih (by rw [withState_links]; exact hp) hn'
    · rw [if_neg hs, wakeWalk]
      have hc : (threadIsSleeping s (some t) && decide ((s.thread t).wakeTick ≤ tick)) = false := by
        simpa [threadIsSleeping] using hs
      simp only [hc, Bool.false_eq_true, ↓reduceIte]
      exact ih hp hn'

theorem wakeExpired_represents (h : Represents s a) (tick : ℕ) (l : List ThreadPtr) :
    Represents (s.wakeExpired tick l) a := by
  refine h.congr ?_ ?_ rfl rfl rfl ?_ rfl rfl
  · funext u
    simp only [Scheduler.links, Scheduler.wakeExpired]
    split <;> rfl
  · funext u
    simp only [Scheduler.waitLinks, Scheduler.wakeExpired]
    split <;> rfl
  · intro u
    simp only [Scheduler.wakeExpired]
    split <;> rfl

theorem wakeSleepingThreads_eq (h : Represents s a) (tick : ℕ) :
    wakeSleepingThreads s tick = .ok (s.wakeExpired tick a.run) := wakeWalk_eq h.run h.created

end

end Tianole.Sched
