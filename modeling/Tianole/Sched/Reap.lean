import Tianole.Sched.RunQueue

/-! Critical sections, thread creation and the reaper of `kernel/sched/thread.c`. -/
namespace Tianole.Sched
open Links

/-! ### Critical sections -/

/-- No lock is held. -/
structure Locks.Free (k : Locks) : Prop where
  locked : ∀ l, k.locked l = false
  depth : k.spinlockDepth = 0

/-- A critical section leaves the lock state and the interrupt flag as it found them. -/
theorem withLock_eq {α : Type} {k : Kernel} {lock : LockId} (h : k.locks.locked lock = false)
    (body : Scheduler → Except Stop (Scheduler × α)) :
    withLock k lock body = (body k.sched).map fun r => (⟨r.1, k.locks⟩, r.2) := by
  have hl : Function.update (Function.update k.locks.locked lock true) lock false =
      k.locks.locked := by
    rw [Function.update_idem, ← h, Function.update_eq_self]
  simp only [withLock, spinLockIrqsave, h, Bool.false_eq_true, ↓reduceIte, bind, Except.bind]
  cases body k.sched with
  | error e => rfl
  | ok r =>
    obtain ⟨s, a⟩ := r
    simp [spinUnlockIrqrestore, Except.map, hl, pure, Except.pure]

section
variable {s s' : Scheduler} {a : Shape} {t : ThreadPtr}

/-! ### Creation -/

theorem initThread_represents (h : Represents s a) (ht : t ∉ a.run) (entry stack : ℕ) :
    Represents (enqueueThread (initThread s t entry stack) t)
      { a with run := a.run ++ [t] } := by
  have hlinks : ∀ u ∈ a.run, (initThread s t entry stack).thread u = s.thread u := by
    intro u hu
    exact Function.update_of_ne (by rintro rfl; exact ht hu) _ _
  have hskel := enqueueThread_skeleton (s := initThread s t entry stack) (t := t)
  have howner (u : ThreadPtr) : ((enqueueThread (initThread s t entry stack) t).thread u).waitQueue =
      ((initThread s t entry stack).thread u).waitQueue := skeleton_eq_waitQueue hskel u
  have hwait (u : ThreadPtr) : ((enqueueThread (initThread s t entry stack) t).thread u).waitNext =
      ((initThread s t entry stack).thread u).waitNext :=
    congrFun enqueueThread_waitLinks u
  have hself : (initThread s t entry stack).thread t =
      { id := s.nextThreadId, state := .ready, entry := entry, stackBase := stack,
        stackSize := kernelStackSize, wakeTick := 0, next := none, waitNext := none,
        waitQueue := none } := Function.update_self _ _ _
  have hrun : Path (initThread s t entry stack).links s.runQueueHead a.run none :=
    (path_congr fun u hu => congrArg Thread.next (hlinks u hu)).mpr h.run
  obtain ⟨hpath, htail⟩ := enqueueThread_run hrun h.runTail ht
  exact {
    run := hpath
    runTail := htail
    wait := fun q => by
      rw [enqueueThread_waitLinks, enqueueThread_queue]
      refine (path_congr fun u hu => ?_).mpr (h.wait q)
      exact congrArg Thread.waitNext (hlinks u (h.waitSub q u hu))
    waitTail := fun q => by rw [enqueueThread_queue]; exact h.waitTail q
    waitSub := fun q u hu => List.mem_append_left _ (h.waitSub q u hu)
    owner := fun q u hu => by
      rw [howner]
      rcases List.mem_append.mp hu with hu | hu
      · rw [hlinks u hu]; exact h.owner q u hu
      · obtain rfl := List.mem_singleton.mp hu
        rw [hself]
        simpa using fun hm => ht (h.waitSub q u hm)
    unlinked := fun u hu => by
      rw [howner, hwait]
      rcases List.mem_append.mp hu with hu | hu
      · rw [hlinks u hu]; exact h.unlinked u hu
      · obtain rfl := List.mem_singleton.mp hu
        rw [hself]
        exact fun _ => rfl
    allocated := fun u => by
      have he : (enqueueThread (initThread s t entry stack) t).allocated u =
          Function.update s.allocated t true u :=
        congrFun (skeleton_eq_allocated hskel) u
      rw [he]
      by_cases hu : u = t
      · subst hu; simp
      · simp [hu, h.allocated u]
    created := by
      have he : (enqueueThread (initThread s t entry stack) t).created = s.created + 1 :=
        skeleton_eq_created hskel
      rw [he]
      simpa using h.created }

/-! ### The reaper -/

theorem detachThread_skeleton (prev next reapList : Option ThreadPtr) :
    (detachThread s prev t next reapList).skeleton = s.skeleton := by
  unfold detachThread
  rw [skeleton_setNext]
  cases prev with
  | none => rfl
  | some p => exact skeleton_setNext s p next

theorem detachThread_waitLinks (prev next reapList : Option ThreadPtr) :
    (detachThread s prev t next reapList).waitLinks = s.waitLinks := by
  unfold detachThread
  rw [Scheduler.waitLinks_setNext]
  cases prev with
  | none => rfl
  | some p => exact s.waitLinks_setNext p next

theorem detachThread_queue (prev next reapList : Option ThreadPtr) :
    (detachThread s prev t next reapList).queue = s.queue := by
  cases prev <;> rfl

theorem detachThread_tail (prev next reapList : Option ThreadPtr) :
    (detachThread s prev t next reapList).runQueueTail =
      if s.runQueueTail = some t then prev else s.runQueueTail := by
  cases prev <;> rfl

theorem detachThread_links_none (next reapList : Option ThreadPtr) :
    (detachThread s none t next reapList).links = Function.update s.links t reapList ∧
      (detachThread s none t next reapList).runQueueHead = next :=
  ⟨by rw [detachThread, Scheduler.links_setNext]; rfl, rfl⟩

theorem detachThread_links_some (p : ThreadPtr) (next reapList : Option ThreadPtr) :
    (detachThread s (some p) t next reapList).links =
        Function.update (Function.update s.links p next) t reapList ∧
      (detachThread s (some p) t next reapList).runQueueHead = s.runQueueHead :=
  ⟨by rw [detachThread, Scheduler.links_setNext, ← s.links_setNext p next]; rfl, rfl⟩

/-- Unlinking the head of `rest` keeps both lists well linked. -/
theorem detachThread_run {kept rest dead : List ThreadPtr} {reapList : Option ThreadPtr}
    (hrun : Path s.links s.runQueueHead (kept ++ t :: rest) none)
    (htail : s.runQueueTail = (kept ++ t :: rest).getLast?)
    (hdead : Path s.links reapList dead none) (hdisj : ∀ u ∈ dead, u ∉ kept ++ t :: rest) :
    let s' := detachThread s kept.getLast? t (s.links t) reapList
    Path s'.links s'.runQueueHead (kept ++ rest) none ∧
      s'.runQueueTail = (kept ++ rest).getLast? ∧ Path s'.links (some t) (t :: dead) none := by
  intro s'
  have hn := path_nodup hrun
  have htk : t ∉ kept := fun h => (List.nodup_append.mp hn).2.2 t h t (by simp) rfl
  have htr : t ∉ rest := (List.nodup_cons.mp (List.nodup_append.mp hn).2.1).1
  have htd : t ∉ dead := fun h => hdisj t h (by simp)
  refine ⟨?_, ?_, ?_⟩
  · rcases List.eq_nil_or_concat kept with rfl | ⟨l, b, rfl⟩
    · obtain ⟨hl, hh⟩ := detachThread_links_none (s := s) (t := t) (s.links t) reapList
      change Path (detachThread s none t (s.links t) reapList).links _ _ _
      rw [hl]
      change Path _ (detachThread s none t (s.links t) reapList).runQueueHead _ _
      rw [hh]
      exact (path_update htr).mpr hrun.2
    · obtain ⟨hl, hh⟩ := detachThread_links_some (s := s) (t := t) b (s.links t) reapList
      have hb : (l.concat b).getLast? = some b := by simp
      simp only [s', hb, hl, hh]
      have hnot : t ∉ l.concat b ++ rest := by simp_all
      refine (path_update hnot).mpr ?_
      simpa using path_unlink (by simpa using hrun)
  · simp only [s', detachThread_tail, htail]
    exact getLast_unlink hn
  · refine ⟨rfl, ?_⟩
    rcases List.eq_nil_or_concat kept with rfl | ⟨l, b, rfl⟩
    · obtain ⟨hl, -⟩ := detachThread_links_none (s := s) (t := t) (s.links t) reapList
      change Path (detachThread s none t (s.links t) reapList).links
        ((detachThread s none t (s.links t) reapList).links t) _ _
      rw [hl, Function.update_self]
      exact (path_update htd).mpr hdead
    · obtain ⟨hl, -⟩ := detachThread_links_some (s := s) (t := t) b (s.links t) reapList
      have hb : (l.concat b).getLast? = some b := by simp
      have hbd : b ∉ dead := fun h => hdisj b h (by simp)
      simp only [s', hb, hl, Function.update_self]
      exact (path_update htd).mpr ((path_update hbd).mpr hdead)

/-- The listed threads after `thread_set_dead`. -/
def Scheduler.bury (s : Scheduler) (l : List ThreadPtr) : Scheduler :=
  { s with thread := fun u =>
      if u ∈ l then { s.thread u with state := .dead, wakeTick := 0 } else s.thread u }

/-- The listed threads after their release. -/
def Scheduler.release (s : Scheduler) (l : List ThreadPtr) : Scheduler :=
  { s with
    thread := fun u => if u ∈ l then { s.thread u with next := none } else s.thread u
    allocated := fun u => s.allocated u && decide (u ∉ l) }

@[simp] theorem bury_nil : s.bury [] = s := by simp [Scheduler.bury]

theorem bury_withState (l : List ThreadPtr) :
    (s.withState t .dead 0).bury l = s.bury (t :: l) := by
  simp only [Scheduler.bury, Scheduler.withState, Scheduler.modifyThread]
  congr 1
  funext u
  by_cases hu : u = t
  · subst hu; simp
  · simp [hu]

theorem reapable_skeleton : reapable s.skeleton = reapable s := rfl

theorem reapable_iff : reapable s t = true ↔
    (s.thread t).state = .zombie ∧ some t ≠ s.currentThread := by
  simp [reapable, threadIsZombie]

theorem reapable_withState {u : ThreadPtr} (hu : u ≠ t) (state : ThreadState) (wake : ℕ) :
    reapable (s.withState t state wake) u = reapable s u := by
  have : (s.withState t state wake).thread u = s.thread u := by simp [withState_thread, hu]
  simp only [reapable, threadIsZombie, Option.any_some, this]
  rfl

/-- What the reaping loop has built when it stands before the node after `kept`. -/
structure ReapLists (s : Scheduler) (kept dead : List ThreadPtr) (reapList : Option ThreadPtr) :
    Prop where
  run : Path s.links s.runQueueHead kept none
  runTail : s.runQueueTail = kept.getLast?
  dead : Path s.links reapList dead none

/-- The loop keeps the order of the survivors and collects the zombies in reverse. -/
theorem reapWalk_eq {n : ℕ} {kept rest dead : List ThreadPtr} {reapList : Option ThreadPtr}
    (h : ReapLists s (kept ++ rest) dead reapList) (hdisj : ∀ u ∈ dead, u ∉ kept ++ rest)
    (hn : rest.length ≤ n) :
    ∃ s' reapList', reapWalk n s kept.getLast? rest.head? reapList = .ok (s', reapList') ∧
      ReapLists s' (kept ++ rest.filter (fun u => !reapable s u))
        ((rest.filter (reapable s)).reverse ++ dead) reapList' ∧
      s'.skeleton = s.skeleton.bury (rest.filter (reapable s)) ∧
      s'.waitLinks = s.waitLinks ∧ s'.queue = s.queue := by
  induction rest generalizing s kept dead reapList n with
  | nil =>
    refine ⟨s, reapList, by cases n <;> rfl, by simpa using h, ?_, rfl, rfl⟩
    rw [List.filter_nil, bury_nil]
  | cons t rest ih =>
    obtain ⟨n, rfl⟩ : ∃ m, n = m + 1 := ⟨n - 1, by simp at hn; omega⟩
    have hn' : rest.length ≤ n := by simpa using hn
    have hnd := path_nodup h.run
    have hhead : (s.thread t).next = rest.head? := path_head (path_next h.run)
    have htr : t ∉ rest := (List.nodup_cons.mp (List.nodup_append.mp hnd).2.1).1
    cases hr : reapable s t with
    | false =>
      have hlist : kept ++ t :: rest = kept ++ [t] ++ rest := by simp
      have hkept : ReapLists s (kept ++ [t] ++ rest) dead reapList := hlist ▸ h
      obtain ⟨s', r', hw, hl, hrest⟩ := ih hkept (hlist ▸ hdisj) hn'
      refine ⟨s', r', ?_, ?_, ?_⟩
      · simpa [reapWalk, hr, hhead] using hw
      · simpa [hr] using hl
      · simpa [hr] using hrest
    | true =>
      have hz : (s.thread t).state = .zombie := (reapable_iff.mp hr).1
      have hset : threadSetDead s (some t) = .ok (s.withState t .dead 0) := by
        rw [threadSetDead, threadSetWith_some]
        simp [hz, threadStateTransitionIsValid]
      have hd := detachThread_run (s := s.withState t .dead 0)
        (by rw [withState_links]; exact h.run) h.runTail (by simpa using h.dead) hdisj
      rw [withState_links] at hd
      set s₁ := detachThread (s.withState t .dead 0) kept.getLast? t (s.links t) reapList with hs₁
      have hskel : s₁.skeleton = s.skeleton.withState t .dead 0 := by
        rw [hs₁, detachThread_skeleton, skeleton_withState]
      have hreap : ∀ u, u ≠ t → reapable s₁ u = reapable s u := by
        intro u hu
        rw [← reapable_skeleton, hskel, reapable_withState hu, reapable_skeleton]
      have hfilter : rest.filter (reapable s₁) = rest.filter (reapable s) :=
        List.filter_congr fun u hu => hreap u (by rintro rfl; exact htr hu)
      have hfilter' : rest.filter (fun u => !reapable s₁ u) =
          rest.filter (fun u => !reapable s u) :=
        List.filter_congr fun u hu => by rw [hreap u (by rintro rfl; exact htr hu)]
      have hlists : ReapLists s₁ (kept ++ rest) (t :: dead) (some t) := ⟨hd.1, hd.2.1, hd.2.2⟩
      obtain ⟨s', r', hw, hl, hb, hwl, hq⟩ := ih hlists (by
          intro u hu
          rcases List.mem_cons.mp hu with rfl | hu
          · intro hm
            rcases List.mem_append.mp hm with hm | hm
            · exact (List.nodup_append.mp hnd).2.2 u hm u (by simp) rfl
            · exact htr hm
          · intro hm
            exact hdisj u hu (by simp only [List.mem_append, List.mem_cons] at hm ⊢; tauto)) hn'
      refine ⟨s', r', ?_, ?_, ?_, ?_, ?_⟩
      · rw [List.head?_cons, reapWalk]
        simp only [hr, ↓reduceIte, hset, bind, Except.bind, hhead]
        have : s.links t = rest.head? := hhead
        rw [← hw, hs₁, this]
      · simpa [hr, hfilter, hfilter'] using hl
      · rw [hb, hskel, bury_withState, hfilter]
        simp [hr]
      · rw [hwl, hs₁, detachThread_waitLinks, withState_waitLinks]
      · rw [hq, hs₁, detachThread_queue]; rfl

/-- What `release_thread` asks of a thread that the walk has put on the private list. -/
structure Releasable (s : Scheduler) (t : ThreadPtr) : Prop where
  waitQueue : (s.thread t).waitQueue = none
  stackBase : (s.thread t).stackBase ≠ 0
  stackSize : (s.thread t).stackSize ≠ 0

theorem releaseThread_eq (hr : Releasable s t) (hcur : some t ≠ s.currentThread)
    (hdead : (s.thread t).state = .dead) (hlink : (s.thread t).waitNext = none)
    (htick : (s.thread t).wakeTick = 0) (halloc : s.allocated t = true) :
    releaseThread s t = .ok { s with allocated := Function.update s.allocated t false } := by
  simp [releaseThread, hcur, threadIsDead, hdead, hr.waitQueue, hlink, htick, hr.stackBase,
    hr.stackSize, halloc]

theorem release_cons (l : List ThreadPtr) :
    ({ s.setNext t none with allocated := Function.update s.allocated t false } :
      Scheduler).release l = s.release (t :: l) := by
  simp only [Scheduler.release, Scheduler.setNext, Scheduler.modifyThread]
  congr 1
  · funext u
    by_cases hu : u = t
    · subst hu; simp
    · simp [hu]
  · funext u
    by_cases hu : u = t
    · subst hu; simp
    · simp [hu]

theorem releaseWalk_eq {n : ℕ} {reapList : Option ThreadPtr} {dead : List ThreadPtr}
    (h : Path s.links reapList dead none) (hn : dead.length ≤ n)
    (hr : ∀ t ∈ dead, Releasable s t) (hcur : ∀ t ∈ dead, some t ≠ s.currentThread)
    (hdead : ∀ t ∈ dead, (s.thread t).state = .dead ∧ (s.thread t).waitNext = none ∧
      (s.thread t).wakeTick = 0) (halloc : ∀ t ∈ dead, s.allocated t = true) :
    releaseWalk n s reapList = .ok (s.release dead) := by
  induction dead generalizing s reapList n with
  | nil =>
    obtain rfl : reapList = none := h
    cases n <;> simp [releaseWalk, Scheduler.release]
  | cons t dead ih =>
    have ht := (List.nodup_cons.mp (path_nodup h)).1
    obtain ⟨rfl, hp⟩ := h
    obtain ⟨n, rfl⟩ : ∃ m, n = m + 1 := ⟨n - 1, by simp at hn; omega⟩
    obtain ⟨hd, hw, hk⟩ := hdead t (by simp)
    have hrt := hr t (by simp)
    have hself : (s.setNext t none).thread t = { s.thread t with next := none } :=
      Scheduler.modifyThread_self _ _ _
    have hrel : releaseThread (s.setNext t none) t =
        .ok { s.setNext t none with allocated := Function.update s.allocated t false } := by
      refine releaseThread_eq ⟨?_, ?_, ?_⟩ (hcur t (by simp)) ?_ ?_ ?_ (halloc t (by simp))
      · rw [hself]; exact hrt.waitQueue
      · rw [hself]; exact hrt.stackBase
      · rw [hself]; exact hrt.stackSize
      · rw [hself]; exact hd
      · rw [hself]; exact hw
      · rw [hself]; exact hk
    set s₁ : Scheduler :=
      { s.setNext t none with allocated := Function.update s.allocated t false } with hs₁
    have hother : ∀ u ∈ dead, s₁.thread u = s.thread u := by
      intro u hu
      have hne : u ≠ t := by rintro rfl; exact ht hu
      exact Function.update_of_ne hne _ _
    have hlinks : s₁.links = Function.update s.links t none := s.links_setNext t none
    rw [releaseWalk]
    simp only [hrel, bind, Except.bind]
    rw [← release_cons]
    refine ih (by rw [hlinks]; exact (path_update ht).mpr hp) (by simpa using hn) ?_ ?_ ?_ ?_
    · intro u hu
      have := hr u (by simp [hu])
      exact ⟨by rw [hother u hu]; exact this.waitQueue, by rw [hother u hu]; exact this.stackBase,
        by rw [hother u hu]; exact this.stackSize⟩
    · exact fun u hu => hcur u (by simp [hu])
    · intro u hu
      rw [hother u hu]
      exact hdead u (by simp [hu])
    · intro u hu
      have hne : u ≠ t := by rintro rfl; exact ht hu
      simpa [hs₁, hne] using halloc u (by simp [hu])

/-- The effect of a reaping pass on everything but the links. -/
def Scheduler.reap (s : Scheduler) (l : List ThreadPtr) : Scheduler :=
  { s.bury l with allocated := fun u => s.allocated u && decide (u ∉ l) }

theorem reap_thread {l : List ThreadPtr} (u : ThreadPtr) : (s.reap l).thread u =
    if u ∈ l then { s.thread u with state := .dead, wakeTick := 0 } else s.thread u := rfl

theorem release_skeleton (l : List ThreadPtr) : (s.release l).skeleton =
    { s.skeleton with allocated := fun u => s.allocated u && decide (u ∉ l) } := by
  simp only [Scheduler.release, Scheduler.skeleton]
  congr 1
  funext u
  split <;> rfl

theorem release_links {l : List ThreadPtr} {u : ThreadPtr} (hu : u ∉ l) :
    (s.release l).links u = s.links u := by simp [Scheduler.links, Scheduler.release, hu]

theorem release_waitLinks (l : List ThreadPtr) : (s.release l).waitLinks = s.waitLinks := by
  funext u
  simp only [Scheduler.waitLinks, Scheduler.release]
  split <;> rfl

theorem release_waitQueue (l : List ThreadPtr) (u : ThreadPtr) :
    ((s.release l).thread u).waitQueue = (s.thread u).waitQueue := by
  simp only [Scheduler.release]
  split <;> rfl

/-- After the walk the buried threads pass every check of `release_thread`. -/
theorem bury_releasable {s₁ : Scheduler} {dead : List ThreadPtr}
    (hskel : s₁.skeleton = s.skeleton.bury dead) (ht : t ∈ dead) (hr : Releasable s t) :
    Releasable s₁ t ∧ (s₁.thread t).state = .dead ∧ (s₁.thread t).wakeTick = 0 := by
  have hthread : s₁.skeleton.thread t =
      { s.skeleton.thread t with state := .dead, wakeTick := 0 } := by
    rw [hskel]
    exact if_pos ht
  have hfield {β : Type} (f : Thread → β) : f (s₁.skeleton.thread t) =
      f { s.skeleton.thread t with state := .dead, wakeTick := 0 } := congrArg f hthread
  exact ⟨⟨(hfield Thread.waitQueue).trans hr.waitQueue,
      fun he => hr.stackBase ((hfield Thread.stackBase).symm.trans he),
      fun he => hr.stackSize ((hfield Thread.stackSize).symm.trans he)⟩,
    hfield Thread.state, hfield Thread.wakeTick⟩

/-- The walk over `s` has taken the zombies from the run queue and marked them dead. -/
structure Buried (s s₁ : Scheduler) (a : Shape) : Prop where
  run : Path s₁.links s₁.runQueueHead (a.run.filter fun u => !reapable s u) none
  runTail : s₁.runQueueTail = (a.run.filter fun u => !reapable s u).getLast?
  skeleton : s₁.skeleton = s.skeleton.bury (a.run.filter (reapable s))
  waitLinks : s₁.waitLinks = s.waitLinks
  queue : s₁.queue = s.queue

section Buried
variable {s₁ : Scheduler}

theorem Buried.created (hb : Buried s s₁ a) : s₁.created = s.created :=
  (congrArg Scheduler.created hb.skeleton : s₁.skeleton.created = _)

theorem Buried.currentThread (hb : Buried s s₁ a) : s₁.currentThread = s.currentThread :=
  (congrArg Scheduler.currentThread hb.skeleton : s₁.skeleton.currentThread = _)

theorem Buried.allocated (hb : Buried s s₁ a) : s₁.allocated = s.allocated :=
  (congrArg Scheduler.allocated hb.skeleton : s₁.skeleton.allocated = _)

theorem Buried.waitQueue (hb : Buried s s₁ a) (u : ThreadPtr) :
    (s₁.thread u).waitQueue = (s.thread u).waitQueue := by
  rw [← skeleton_waitQueue, hb.skeleton]
  simp only [Scheduler.bury]
  split <;> rfl

/-- Every buried thread can be released. -/
theorem Buried.releaseWalk (hb : Buried s s₁ a) (h : Represents s a) {reapList : Option ThreadPtr}
    (hdead : Path s₁.links reapList (a.run.filter (reapable s)).reverse none)
    (hr : ∀ t ∈ a.run, reapable s t = true → Releasable s t) :
    releaseWalk s₁.created s₁ reapList = .ok (s₁.release (a.run.filter (reapable s)).reverse) := by
  have hmem {t : ThreadPtr} (ht : t ∈ (a.run.filter (reapable s)).reverse) :
      t ∈ a.run ∧ reapable s t = true := by simpa using ht
  have hfacts (t : ThreadPtr) (ht : t ∈ (a.run.filter (reapable s)).reverse) :=
    bury_releasable hb.skeleton (List.mem_reverse.mp ht) (hr t (hmem ht).1 (hmem ht).2)
  refine releaseWalk_eq hdead ?_ (fun t ht => (hfacts t ht).1) (fun t ht => ?_) (fun t ht => ?_)
    fun t ht => ?_
  · rw [hb.created, List.length_reverse]
    exact Nat.le_trans (List.length_filter_le _ _) h.created
  · rw [hb.currentThread]
    exact (reapable_iff.mp (hmem ht).2).2
  · refine ⟨(hfacts t ht).2.1, ?_, (hfacts t ht).2.2⟩
    have hnext : (s₁.thread t).waitNext = (s.thread t).waitNext := congrFun hb.waitLinks t
    rw [hnext]
    exact h.unlinked t (hmem ht).1 (hr t (hmem ht).1 (hmem ht).2).waitQueue
  · rw [hb.allocated]
    exact (h.allocated t).mpr (hmem ht).1

/-- The rest of the lists is left as it was. -/
theorem Buried.represents (hb : Buried s s₁ a) (h : Represents s a)
    (hr : ∀ t ∈ a.run, reapable s t = true → Releasable s t) :
    Represents (s₁.release (a.run.filter (reapable s)).reverse)
      { a with run := a.run.filter fun u => !reapable s u } := by
  have hsub : ∀ u ∈ a.run.filter (fun u => !reapable s u), u ∈ a.run :=
    fun u hu => (List.mem_filter.mp hu).1
  have hdisj : ∀ u ∈ a.run.filter (fun u => !reapable s u),
      u ∉ (a.run.filter (reapable s)).reverse := by
    intro u hu hg
    have hzombie := (List.mem_filter.mp (List.mem_reverse.mp hg)).2
    simp [hzombie] at hu
  exact {
    run := (path_congr fun u hu => release_links (hdisj u hu)).mpr hb.run
    runTail := hb.runTail
    wait := fun q => by
      rw [release_waitLinks, hb.waitLinks]
      change Path _ (s₁.queue q).head _ _
      rw [hb.queue]
      exact h.wait q
    waitTail := fun q => by
      change (s₁.queue q).tail = _
      rw [hb.queue]
      exact h.waitTail q
    waitSub := fun q u hu => by
      have hm := h.waitSub q u hu
      refine List.mem_filter.mpr ⟨hm, ?_⟩
      cases hz : reapable s u with
      | false => rfl
      | true =>
        have hnone := (hr u hm hz).waitQueue
        rw [(h.owner q u hm).mp hu] at hnone
        cases hnone
    owner := fun q u hu => by
      rw [release_waitQueue, hb.waitQueue]
      exact h.owner q u (hsub u hu)
    unlinked := fun u hu => by
      have hl := congrFun ((release_waitLinks (a.run.filter (reapable s)).reverse).trans
        hb.waitLinks) u
      rw [release_waitQueue, hb.waitQueue]
      exact fun hnone => hl.trans (h.unlinked u (hsub u hu) hnone)
    allocated := fun u => by
      change (s₁.allocated u && decide (u ∉ (a.run.filter (reapable s)).reverse)) = true ↔ _
      rw [hb.allocated, Bool.and_eq_true, h.allocated]
      simp only [List.mem_reverse, List.mem_filter, decide_eq_true_eq, Bool.not_eq_true']
      cases reapable s u <;> simp
    created := by
      change (a.run.filter fun u => !reapable s u).length ≤ s₁.created
      rw [hb.created]
      exact Nat.le_trans (List.length_filter_le _ _) h.created }

end Buried

/-- A reaping pass returns, frees every zombie but the current thread, and keeps the
order of the rest. -/
theorem schedReapDeadThreads_eq {k : Kernel} (hf : k.locks.Free) (h : Represents k.sched a)
    (hr : ∀ t ∈ a.run, reapable k.sched t = true → Releasable k.sched t) :
    ∃ s', schedReapDeadThreads k = .ok { k with sched := s' } ∧
      Represents s' { a with run := a.run.filter fun u => !reapable k.sched u } ∧
      s'.skeleton = k.sched.skeleton.reap (a.run.filter (reapable k.sched)) := by
  have hstart : ReapLists k.sched ([] ++ a.run) [] none := ⟨h.run, h.runTail, rfl⟩
  obtain ⟨s₁, reapList, hwalk, hlists, hskel, hwl, hq⟩ :=
    reapWalk_eq hstart (by simp) h.created
  rw [List.nil_append, List.append_nil] at hlists
  have hb : Buried k.sched s₁ a := ⟨hlists.run, hlists.runTail, hskel, hwl, hq⟩
  refine ⟨_, ?_, hb.represents h hr, ?_⟩
  · have hlock := withLock_eq (hf.locked .scheduler)
      fun s => reapWalk s.created s none k.sched.runQueueHead none
    have hhead : k.sched.runQueueHead = a.run.head? := path_head h.run
    rw [List.getLast?_nil, ← hhead] at hwalk
    rw [hwalk] at hlock
    simp only [schedReapDeadThreads, hlock, Except.map, bind, Except.bind,
      hb.releaseWalk h hlists.dead hr, pure, Except.pure]
  · rw [release_skeleton, hskel, hb.allocated]
    simp only [Scheduler.reap, List.mem_reverse]
    rfl

end

end Tianole.Sched
