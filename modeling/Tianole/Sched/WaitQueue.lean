import Tianole.Sched.Reap

/-! What the wait-queue operations of `kernel/sched/wait.c` do to the lists. -/
namespace Tianole.Sched
open Links

/-- The wait-queue owner of one thread, changed. -/
def Scheduler.withOwner (s : Scheduler) (t : ThreadPtr) (o : Option QueuePtr) : Scheduler :=
  s.modifyThread t fun x => { x with waitQueue := o }

section
variable {s s' : Scheduler} {a : Shape} {t u : ThreadPtr} {q p : QueuePtr}

theorem withOwner_thread (o : Option QueuePtr) : (s.withOwner t o).thread u =
    if u = t then { s.thread t with waitQueue := o } else s.thread u :=
  Scheduler.modifyThread_thread _ _ _ _

/-- Each thread is on one wait queue at most. -/
theorem Represents.wait_disjoint (h : Represents s a) (hne : p ≠ q) (ht : t ∈ a.wait q) :
    t ∉ a.wait p := by
  intro hp
  have hrun := h.waitSub q t ht
  have hq := (h.owner q t hrun).mp ht
  rw [(h.owner p t hrun).mp hp] at hq
  exact hne (Option.some.inj hq)

/-- Replacing the list of one wait queue. -/
theorem Represents.rewait (h : Represents s a) {l : List ThreadPtr}
    (hl : s'.links = s.links) (hh : s'.runQueueHead = s.runQueueHead)
    (ht : s'.runQueueTail = s.runQueueTail) (ha : s'.allocated = s.allocated)
    (hc : s'.created = s.created)
    (hpath : Path s'.waitLinks (s'.queue q).head l none)
    (htail : (s'.queue q).tail = l.getLast?)
    (hsub : ∀ u ∈ l, u ∈ a.run)
    (hq : ∀ p, p ≠ q → s'.queue p = s.queue p)
    (hw : ∀ p, p ≠ q → ∀ u ∈ a.wait p, s'.waitLinks u = s.waitLinks u)
    (ho : ∀ u ∈ a.run, u ∈ l ↔ (s'.thread u).waitQueue = some q)
    (ho' : ∀ p, p ≠ q → ∀ u ∈ a.run,
      (s.thread u).waitQueue = some p ↔ (s'.thread u).waitQueue = some p)
    (hu : ∀ u ∈ a.run, (s'.thread u).waitQueue = none → (s'.thread u).waitNext = none) :
    Represents s' { a with wait := Function.update a.wait q l } where
  run := by rw [hl, hh]; exact h.run
  runTail := by rw [ht]; exact h.runTail
  wait p := by
    by_cases hp : p = q
    · subst hp; simpa using hpath
    · simp only [Function.update_of_ne hp, hq p hp]
      exact (path_congr (hw p hp)).mpr (h.wait p)
  waitTail p := by
    by_cases hp : p = q
    · subst hp; simpa using htail
    · simp only [Function.update_of_ne hp, hq p hp]
      exact h.waitTail p
  waitSub p u hm := by
    by_cases hp : p = q
    · subst hp; exact hsub u (by simpa using hm)
    · exact h.waitSub p u (by simpa [hp] using hm)
  owner p u hm := by
    by_cases hp : p = q
    · subst hp; simpa using ho u hm
    · simp only [Function.update_of_ne hp]
      exact (h.owner p u hm).trans (ho' p hp u hm)
  unlinked := hu
  allocated := by rw [ha]; exact h.allocated
  created := by rw [hc]; exact h.created

/-! ### Enqueue -/

/-- The state between the two halves of the enqueue. -/
def Scheduler.claimOwner (s : Scheduler) (t : ThreadPtr) (o : Option QueuePtr) : Scheduler :=
  s.modifyThread t fun x => { x with waitNext := none, waitQueue := o }

theorem claimOwner_waitLinks (o : Option QueuePtr) :
    (s.claimOwner t o).waitLinks = Function.update s.waitLinks t none :=
  s.waitLinks_modifyThread t _

theorem claimOwner_links (o : Option QueuePtr) : (s.claimOwner t o).links = s.links := by
  rw [Scheduler.claimOwner, Scheduler.links_modifyThread]
  exact Function.update_eq_self t s.links

theorem claimOwner_skeleton (o : Option QueuePtr) :
    (s.claimOwner t o).skeleton = s.skeleton.withOwner t o :=
  skeleton_modifyThread s t fun _ => rfl

theorem claimOwner_waitQueue (o : Option QueuePtr) : ((s.claimOwner t o).thread u).waitQueue =
    if u = t then o else (s.thread u).waitQueue := by
  rw [Scheduler.claimOwner, Scheduler.modifyThread_thread]
  split <;> rfl

theorem waitQueueEnqueueLocked_of_empty (ho : (s.thread t).waitQueue = none)
    (ht : (s.queue q).tail = none) : waitQueueEnqueueLocked s q t =
      .ok ((s.claimOwner t (some q)).modifyQueue q fun _ => ⟨some t, some t⟩) := by
  have ht' : ((s.modifyThread t fun x =>
      { x with waitNext := none, waitQueue := some q }).queue q).tail = none := ht
  simp [waitQueueEnqueueLocked, ho, ht', Scheduler.claimOwner, Scheduler.modifyQueue]

theorem waitQueueEnqueueLocked_of_tail {b : ThreadPtr} (ho : (s.thread t).waitQueue = none)
    (ht : (s.queue q).tail = some b) : waitQueueEnqueueLocked s q t =
      .ok (((s.claimOwner t (some q)).setWaitNext b (some t)).modifyQueue q
        fun w => { w with tail := some t }) := by
  have ht' : ((s.modifyThread t fun x =>
      { x with waitNext := none, waitQueue := some q }).queue q).tail = some b := ht
  simp [waitQueueEnqueueLocked, ho, ht', Scheduler.claimOwner]

/-- A thread that was on no queue is now the last of one. -/
theorem Represents.enqueued (h : Represents s a) (hm : t ∈ a.run)
    (hfree : (s.thread t).waitQueue = none) (hl : s'.links = s.links)
    (hh : s'.runQueueHead = s.runQueueHead) (ht : s'.runQueueTail = s.runQueueTail)
    (ha : s'.allocated = s.allocated) (hc : s'.created = s.created)
    (hpath : Path s'.waitLinks (s'.queue q).head (a.wait q ++ [t]) none)
    (htail : (s'.queue q).tail = some t) (hq : ∀ p, p ≠ q → s'.queue p = s.queue p)
    (hw : ∀ u, u ≠ t → u ∉ a.wait q → s'.waitLinks u = s.waitLinks u)
    (ho : ∀ u, (s'.thread u).waitQueue = if u = t then some q else (s.thread u).waitQueue) :
    Represents s' { a with wait := Function.update a.wait q (a.wait q ++ [t]) } := by
  have hfresh (p : QueuePtr) : t ∉ a.wait p := by
    intro hp
    rw [(h.owner p t hm).mp hp] at hfree
    cases hfree
  refine h.rewait hl hh ht ha hc hpath (by simpa using htail) ?_ hq ?_ ?_ ?_ ?_
  · intro u hu
    rcases List.mem_append.mp hu with hu | hu
    · exact h.waitSub q u hu
    · rw [List.mem_singleton.mp hu]
      exact hm
  · intro p hp u hu
    refine hw u ?_ fun huq => h.wait_disjoint hp huq hu
    rintro rfl
    exact hfresh p hu
  · intro u hu
    rw [ho, List.mem_append, h.owner q u hu]
    by_cases hut : u = t <;> simp [hut]
  · intro p hp u _
    rw [ho]
    by_cases hut : u = t
    · subst hut
      simp [hfree, Ne.symm hp]
    · simp [hut]
  · intro u hu hn
    rw [ho] at hn
    have hut : u ≠ t := fun hut => by simp [hut] at hn
    rw [if_neg hut] at hn
    refine (hw u hut fun huq => ?_).trans (h.unlinked u hu hn)
    rw [(h.owner q u hu).mp huq] at hn
    cases hn

/-- Enqueueing an unlinked thread appends it. -/
theorem waitQueueEnqueueLocked_eq (h : Represents s a) (hm : t ∈ a.run)
    (ho : (s.thread t).waitQueue = none) :
    ∃ s', waitQueueEnqueueLocked s q t = .ok s' ∧
      Represents s' { a with wait := Function.update a.wait q (a.wait q ++ [t]) } ∧
      s'.skeleton = s.skeleton.withOwner t (some q) := by
  rcases List.eq_nil_or_concat (a.wait q) with hnil | ⟨l, b, hl⟩
  · have htail : (s.queue q).tail = none := by rw [h.waitTail q, hnil]; rfl
    refine ⟨_, waitQueueEnqueueLocked_of_empty ho htail, ?_, claimOwner_skeleton _⟩
    refine h.enqueued hm ho (claimOwner_links _) rfl rfl rfl rfl ?_ ?_ ?_ ?_ ?_
    · simp only [hnil, Scheduler.modifyQueue, Function.update_self, List.nil_append]
      change Path (s.claimOwner t (some q)).waitLinks _ _ _
      rw [claimOwner_waitLinks]
      simp
    · simp [Scheduler.modifyQueue]
    · exact fun p hp => Function.update_of_ne hp _ _
    · intro u hut _
      change (s.claimOwner t (some q)).waitLinks u = _
      rw [claimOwner_waitLinks, Function.update_of_ne hut]
    · exact fun u => claimOwner_waitQueue (some q)
  · rw [List.concat_eq_append] at hl
    have htail : (s.queue q).tail = some b := by rw [h.waitTail q, hl]; simp
    have hlinks : ((s.claimOwner t (some q)).setWaitNext b (some t)).waitLinks =
        Function.update (Function.update s.waitLinks t none) b (some t) := by
      rw [Scheduler.waitLinks_setWaitNext, claimOwner_waitLinks]
    refine ⟨_, waitQueueEnqueueLocked_of_tail ho htail, ?_,
      (skeleton_setWaitNext _ b (some t)).trans (claimOwner_skeleton _)⟩
    refine h.enqueued hm ho ((Scheduler.links_setWaitNext _ b (some t)).trans (claimOwner_links _))
      rfl rfl rfl rfl ?_ ?_ ?_ ?_ ?_
    · simp only [Scheduler.modifyQueue, Function.update_self]
      change Path ((s.claimOwner t (some q)).setWaitNext b (some t)).waitLinks (s.queue q).head _ _
      have hfresh : t ∉ a.wait q := fun hq => by
        rw [(h.owner q t hm).mp hq] at ho
        cases ho
      rw [hlinks, hl]
      exact path_concat (hl ▸ h.wait q) (hl ▸ hfresh)
    · simp [Scheduler.modifyQueue]
    · exact fun p hp => Function.update_of_ne hp _ _
    · intro u hut hu
      change ((s.claimOwner t (some q)).setWaitNext b (some t)).waitLinks u = _
      have hub : u ≠ b := by
        rintro rfl
        exact hu (by rw [hl]; simp)
      rw [hlinks, Function.update_of_ne hub, Function.update_of_ne hut]
    · intro u
      change (((s.claimOwner t (some q)).setWaitNext b (some t)).thread u).waitQueue = _
      rw [Scheduler.setWaitNext, Scheduler.modifyThread_thread, ← claimOwner_waitQueue]
      split <;> simp_all

/-! ### Removal -/

theorem unlinkWaiter_links (prev : Option ThreadPtr) :
    (unlinkWaiter s q prev t).links = s.links := by
  refine (claimOwner_links (s := Scheduler.modifyQueue _ q _) none).trans ?_
  cases prev with
  | none => rfl
  | some b => exact s.links_setWaitNext b _

theorem unlinkWaiter_skeleton (prev : Option ThreadPtr) :
    (unlinkWaiter s q prev t).skeleton = s.skeleton.withOwner t none := by
  refine (claimOwner_skeleton (s := Scheduler.modifyQueue _ q _) none).trans ?_
  cases prev with
  | none => rfl
  | some b => exact congrArg (Scheduler.withOwner · t none) (skeleton_setWaitNext s b _)

theorem unlinkWaiter_waitLinks_none :
    (unlinkWaiter s q none t).waitLinks = Function.update s.waitLinks t none :=
  claimOwner_waitLinks none

theorem unlinkWaiter_waitLinks_some (b : ThreadPtr) : (unlinkWaiter s q (some b) t).waitLinks =
    Function.update (Function.update s.waitLinks b (s.waitLinks t)) t none :=
  (claimOwner_waitLinks none).trans
    (congrArg (fun f : ThreadPtr → Option ThreadPtr => Function.update f t none)
      (s.waitLinks_setWaitNext b _))

theorem unlinkWaiter_queue_of_ne (prev : Option ThreadPtr) (hp : p ≠ q) :
    (unlinkWaiter s q prev t).queue p = s.queue p := by
  cases prev with
  | none => exact (Function.update_of_ne hp _ _).trans (Function.update_of_ne hp _ _)
  | some b => exact Function.update_of_ne hp _ _

theorem unlinkWaiter_queue_none : (unlinkWaiter s q none t).queue q =
    ⟨s.waitLinks t, if (s.queue q).tail = some t then none else (s.queue q).tail⟩ := by
  simp [unlinkWaiter, Scheduler.modifyQueue, Scheduler.modifyThread, Scheduler.waitLinks]

theorem unlinkWaiter_queue_some (b : ThreadPtr) : (unlinkWaiter s q (some b) t).queue q =
    ⟨(s.queue q).head, if (s.queue q).tail = some t then some b else (s.queue q).tail⟩ :=
  Function.update_self _ _ _

theorem unlinkWaiter_waitQueue (prev : Option ThreadPtr) (u : ThreadPtr) :
    ((unlinkWaiter s q prev t).thread u).waitQueue =
      if u = t then none else (s.thread u).waitQueue := by
  rw [← skeleton_waitQueue, unlinkWaiter_skeleton, withOwner_thread]
  split <;> rfl

theorem unlinkWaiter_waitLinks_self {before : Option ThreadPtr} :
    (unlinkWaiter s q before t).waitLinks t = none := by
  cases before with
  | none => rw [unlinkWaiter_waitLinks_none, Function.update_self]
  | some b => rw [unlinkWaiter_waitLinks_some, Function.update_self]

theorem unlinkWaiter_waitLinks_of_ne {before : Option ThreadPtr} (hut : u ≠ t)
    (hub : before ≠ some u) : (unlinkWaiter s q before t).waitLinks u = s.waitLinks u := by
  cases before with
  | none => rw [unlinkWaiter_waitLinks_none, Function.update_of_ne hut]
  | some b =>
    have hne : u ≠ b := by rintro rfl; exact hub rfl
    rw [unlinkWaiter_waitLinks_some, Function.update_of_ne hut, Function.update_of_ne hne]

/-- Unlinking removes exactly the one thread. -/
theorem unlinkWaiter_represents {l₁ l₂ : List ThreadPtr} (h : Represents s a)
    (hl : a.wait q = l₁ ++ t :: l₂) :
    Represents (unlinkWaiter s q l₁.getLast? t)
      { a with wait := Function.update a.wait q (l₁ ++ l₂) } := by
  have hpath := h.wait q
  have hnd := h.wait_nodup q
  have htail := h.waitTail q
  rw [hl] at hpath hnd htail
  have htl : t ∉ l₁ ++ l₂ := by
    have := List.nodup_middle.mp hnd
    exact (List.nodup_cons.mp this).1
  have hmem : t ∈ a.wait q := by rw [hl]; simp
  have hlastMem : ∀ u, l₁.getLast? = some u → u ∈ a.wait q := by
    intro u hu
    rw [hl]
    exact List.mem_append_left _ (List.mem_of_getLast? hu)
  refine h.rewait (unlinkWaiter_links _) ?_ ?_ ?_ ?_ ?_ ?_ ?_ ?_ ?_ ?_ ?_ ?_
  · cases l₁.getLast? <;> rfl
  · cases l₁.getLast? <;> rfl
  · cases l₁.getLast? <;> rfl
  · cases l₁.getLast? <;> rfl
  · rcases List.eq_nil_or_concat l₁ with rfl | ⟨l, b, rfl⟩
    · rw [List.getLast?_nil, unlinkWaiter_queue_none, unlinkWaiter_waitLinks_none]
      exact (path_update htl).mpr hpath.2
    · have hb : (l.concat b).getLast? = some b := by simp
      rw [hb, unlinkWaiter_queue_some, unlinkWaiter_waitLinks_some]
      refine (path_update htl).mpr ?_
      simpa using path_unlink (by simpa using hpath)
  · rw [← getLast_unlink hnd, ← htail]
    cases l₁.getLast? with
    | none => rw [unlinkWaiter_queue_none]
    | some b => rw [unlinkWaiter_queue_some]
  · intro u hu
    refine h.waitSub q u ?_
    rw [hl]
    simp only [List.mem_append, List.mem_cons] at hu ⊢
    tauto
  · exact fun p hp => unlinkWaiter_queue_of_ne _ hp
  · intro p hp u hu
    refine unlinkWaiter_waitLinks_of_ne ?_ fun hb => h.wait_disjoint hp (hlastMem u hb) hu
    rintro rfl
    exact h.wait_disjoint hp hmem hu
  · intro u hu
    rw [unlinkWaiter_waitQueue]
    by_cases hut : u = t
    · subst hut; simp [htl]
    · have := h.owner q u hu
      rw [hl] at this
      simpa [hut] using this
  · intro p hp u hu
    rw [unlinkWaiter_waitQueue]
    by_cases hut : u = t
    · subst hut
      have := (h.owner q u hu).mp hmem
      simp [this, Ne.symm hp]
    · simp [hut]
  · intro u hu hn
    rw [unlinkWaiter_waitQueue] at hn
    change (unlinkWaiter s q l₁.getLast? t).waitLinks u = none
    by_cases hut : u = t
    · subst hut
      exact unlinkWaiter_waitLinks_self
    · rw [if_neg hut] at hn
      rw [unlinkWaiter_waitLinks_of_ne hut fun hb => ?_]
      · exact h.unlinked u hu hn
      · rw [(h.owner q u hu).mp (hlastMem u hb)] at hn
        cases hn

theorem removeWalk_eq {n : ℕ} {l₁ l₂ : List ThreadPtr} {b : Option ThreadPtr} {z : Option ThreadPtr}
    (h : Path s.waitLinks z (l₁ ++ t :: l₂) none) (hn : l₁.length < n) :
    removeWalk q t n s b z = .ok (unlinkWaiter s q (l₁.getLast?.or b) t) := by
  induction l₁ generalizing b z n with
  | nil =>
    obtain ⟨rfl, -⟩ := h
    obtain ⟨n, rfl⟩ : ∃ m, n = m + 1 := ⟨n - 1, by simp at hn; omega⟩
    simp [removeWalk]
  | cons y l₁ ih =>
    have hnd := path_nodup h
    obtain ⟨rfl, hp⟩ := h
    obtain ⟨n, rfl⟩ : ∃ m, n = m + 1 := ⟨n - 1, by simp at hn; omega⟩
    have hyt : y ≠ t := by
      rintro rfl
      simp at hnd
    rw [removeWalk, if_neg hyt]
    refine (ih hp (by simpa using hn)).trans ?_
    cases l₁ with
    | nil => rfl
    | cons w l₁ => simp [List.getLast?_cons]

/-- Removal of one thread, wherever it stands in the queue; a thread that is not on it is
left alone. The panic on an inconsistent membership does not occur. -/
theorem waitQueueRemoveLocked_eq (h : Represents s a) (hm : t ∈ a.run) :
    ∃ s' found, waitQueueRemoveLocked s q (some t) = .ok (s', found) ∧
      Represents s' { a with wait := Function.update a.wait q ((a.wait q).erase t) } ∧
      s'.skeleton = if (s.thread t).waitQueue = some q then s.skeleton.withOwner t none
        else s.skeleton := by
  by_cases ho : (s.thread t).waitQueue = some q
  · obtain ⟨l₁, l₂, hl⟩ := List.append_of_mem ((h.owner q t hm).mpr ho)
    have hpath := h.wait q
    have hlen := h.wait_length q
    have hnd := h.wait_nodup q
    rw [hl] at hpath hlen hnd
    have htl : t ∉ l₁ := fun hmem => (List.nodup_append.mp hnd).2.2 t hmem t (by simp) rfl
    have hn : l₁.length < s.created := by
      simp at hlen
      omega
    refine ⟨unlinkWaiter s q l₁.getLast? t, true, ?_, ?_, ?_⟩
    · simp [waitQueueRemoveLocked, ho, removeWalk_eq hpath hn, Except.map]
    · have herase : (a.wait q).erase t = l₁ ++ l₂ := by
        rw [hl, List.erase_append_right _ htl, List.erase_cons_head]
      rw [herase]
      exact unlinkWaiter_represents h hl
    · rw [if_pos ho]
      exact unlinkWaiter_skeleton _
  · have hnot : t ∉ a.wait q := fun hmem => ho ((h.owner q t hm).mp hmem)
    refine ⟨s, false, by simp [waitQueueRemoveLocked, ho], ?_, by rw [if_neg ho]⟩
    rw [List.erase_of_not_mem hnot, Function.update_eq_self]
    exact h

theorem waitQueueRemoveHeadLocked_of_nil (h : Represents s a) (hl : a.wait q = []) :
    waitQueueRemoveHeadLocked s q = (s, none) := by
  have hhead := h.wait q
  rw [hl] at hhead
  have hnone : (s.queue q).head = none := hhead
  simp [waitQueueRemoveHeadLocked, hnone]

theorem waitQueueRemoveHeadLocked_of_cons (h : Represents s a) {l : List ThreadPtr}
    (hl : a.wait q = t :: l) : waitQueueRemoveHeadLocked s q = (unlinkWaiter s q none t, some t) := by
  have hpath := h.wait q
  have htail := h.waitTail q
  have hnd := h.wait_nodup q
  rw [hl] at hpath htail hnd
  obtain ⟨hhead, hnext⟩ := hpath
  have hlast : (s.queue q).tail = some t ↔ (s.thread t).waitNext = none := by
    have hn : (s.thread t).waitNext = l.head? := path_head hnext
    rw [htail, hn]
    cases l with
    | nil => simp
    | cons y l =>
      simp only [List.getLast?_cons_cons, List.head?_cons, reduceCtorEq, iff_false]
      intro he
      exact (List.nodup_cons.mp hnd).1 (List.mem_of_getLast? he)
  simp only [waitQueueRemoveHeadLocked, hhead, unlinkWaiter, Scheduler.modifyQueue,
    Function.update_self, Function.update_idem, hlast]

/-! ### Wakeup -/

/-- The states from which a waker accepts a thread. -/
def Waitable (s : Scheduler) (t : ThreadPtr) : Prop :=
  (s.thread t).state = .waiting ∨ (s.thread t).state = .sleeping

instance : Decidable (Waitable s t) := inferInstanceAs (Decidable (_ ∨ _))

/-- The listed threads unlinked and ready. -/
def Scheduler.wakeUp (s : Scheduler) (l : List ThreadPtr) : Scheduler :=
  { s with thread := fun u =>
      if u ∈ l then { s.thread u with state := .ready, wakeTick := 0, waitQueue := none }
      else s.thread u }

@[simp] theorem wakeUp_nil : s.wakeUp [] = s := by simp [Scheduler.wakeUp]

theorem wakeUp_cons (l : List ThreadPtr) :
    ((s.withOwner t none).withState t .ready 0).wakeUp l = s.wakeUp (t :: l) := by
  simp only [Scheduler.wakeUp, Scheduler.withState, Scheduler.withOwner, Scheduler.modifyThread]
  congr 1
  funext u
  by_cases hu : u = t
  · subst hu; simp
  · simp [hu]

theorem waitQueueMarkReadyLocked_eq : waitQueueMarkReadyLocked s (some t) =
    if Waitable s t then .ok (s.withState t .ready 0)
    else .error (.panic .wakeupNonWaiting) := by
  rw [waitQueueMarkReadyLocked, threadSetReady, threadSetWith_some]
  cases hst : (s.thread t).state <;>
    simp [Waitable, threadIsWaiting, threadIsSleeping, threadStateTransitionIsValid, hst]

/-- One removal and wakeup at the head of a non-empty queue. -/
theorem wakeHead_eq (h : Represents s a) {l : List ThreadPtr} (hl : a.wait q = t :: l) :
    (Waitable s t → ∃ s',
      waitQueueMarkReadyLocked (waitQueueRemoveHeadLocked s q).1
        (waitQueueRemoveHeadLocked s q).2 = .ok s' ∧
      Represents s' { a with wait := Function.update a.wait q l } ∧
      s'.skeleton = (s.skeleton.withOwner t none).withState t .ready 0) ∧
    (¬ Waitable s t →
      waitQueueMarkReadyLocked (waitQueueRemoveHeadLocked s q).1
        (waitQueueRemoveHeadLocked s q).2 = .error (.panic .wakeupNonWaiting)) := by
  have hstate : ((unlinkWaiter s q none t).thread t).state = (s.thread t).state := by
    rw [← skeleton_state, unlinkWaiter_skeleton, withOwner_thread]
    simp
  have hiff : Waitable (unlinkWaiter s q none t) t ↔ Waitable s t := by
    simp only [Waitable, hstate]
  rw [waitQueueRemoveHeadLocked_of_cons h hl, waitQueueMarkReadyLocked_eq]
  simp only [hiff]
  constructor
  · intro hw
    refine ⟨_, if_pos hw, ?_, ?_⟩
    · have hr : Represents (unlinkWaiter s q none t)
          { a with wait := Function.update a.wait q l } :=
        unlinkWaiter_represents h (show a.wait q = [] ++ t :: l from hl)
      exact hr.withState t .ready 0
    · rw [skeleton_withState, unlinkWaiter_skeleton]
  · exact fun hw => if_neg hw

theorem wakeAllLoop_eq {n : ℕ} {l : List ThreadPtr} (h : Represents s a) (hl : a.wait q = l)
    (hn : l.length ≤ n) :
    ((∀ t ∈ l, Waitable s t) → ∃ s', wakeAllLoop q n s = .ok s' ∧
      Represents s' { a with wait := Function.update a.wait q [] } ∧
      s'.skeleton = s.skeleton.wakeUp l) ∧
    ((∃ t ∈ l, ¬ Waitable s t) → wakeAllLoop q n s = .error (.panic .wakeupNonWaiting)) := by
  induction l generalizing s a n with
  | nil =>
    have hhead := h.wait q
    rw [hl] at hhead
    have hnone : (s.queue q).head = none := hhead
    refine ⟨fun _ => ⟨s, by cases n <;> simp [wakeAllLoop, hnone], ?_, by simp⟩, by simp⟩
    rw [← hl, Function.update_eq_self]
    exact h
  | cons t l ih =>
    obtain ⟨n, rfl⟩ : ∃ m, n = m + 1 := ⟨n - 1, by simp at hn; omega⟩
    have hpath := h.wait q
    have hnd := h.wait_nodup q
    rw [hl] at hpath hnd
    have hhead : (s.queue q).head = some t := hpath.1
    have hloop : wakeAllLoop q (n + 1) s =
        (waitQueueMarkReadyLocked (waitQueueRemoveHeadLocked s q).1
          (waitQueueRemoveHeadLocked s q).2).bind (wakeAllLoop q n) := by
      simp only [wakeAllLoop, hhead, reduceCtorEq, ↓reduceIte]
      rfl
    obtain ⟨hok, hbad⟩ := wakeHead_eq h hl
    by_cases ht : Waitable s t
    · obtain ⟨s₁, hmark, hrep, hskel⟩ := hok ht
      have hother : ∀ u ∈ l, (Waitable s₁ u ↔ Waitable s u) := by
        intro u hu
        have hne : u ≠ t := by rintro rfl; exact (List.nodup_cons.mp hnd).1 hu
        have hst : (s₁.thread u).state = (s.thread u).state := by
          rw [← skeleton_state, hskel, withState_thread, if_neg hne, withOwner_thread,
            if_neg hne, skeleton_state]
        simp only [Waitable, hst]
      obtain ⟨ihok, ihbad⟩ := ih hrep (by simp) (by simpa using hn)
      rw [hloop, hmark]
      constructor
      · intro hall
        obtain ⟨s', hw, hr, hs⟩ := ihok fun u hu => (hother u hu).mpr (hall u (by simp [hu]))
        refine ⟨s', hw, by simpa using hr, ?_⟩
        rw [hs, hskel, wakeUp_cons]
      · rintro ⟨u, hu, hnw⟩
        rcases List.mem_cons.mp hu with rfl | hu
        · exact absurd ht hnw
        · exact ihbad ⟨u, hu, fun hw => hnw ((hother u hu).mp hw)⟩
    · refine ⟨fun hall => absurd (hall t (by simp)) ht, fun _ => ?_⟩
      rw [hloop, hbad ht]
      rfl

/-- The threads that a wakeup removes, and those that it leaves. -/
def WakeKind.removed : WakeKind → List ThreadPtr → List ThreadPtr
  | .one, l => l.take 1
  | .all, l => l

def WakeKind.left : WakeKind → List ThreadPtr → List ThreadPtr
  | .one, l => l.drop 1
  | .all, _ => []

theorem WakeKind.mem_of_removed {kind : WakeKind} {l : List ThreadPtr}
    (h : t ∈ kind.removed l) : t ∈ l := by
  cases kind with
  | one => exact List.mem_of_mem_take h
  | all => exact h

/-- A wakeup succeeds exactly when everything it removes is waitable. -/
theorem wakeLocked_eq (h : Represents s a) (kind : WakeKind) (q : QueuePtr) :
    ((∀ t ∈ kind.removed (a.wait q), Waitable s t) → ∃ s', wakeLocked kind s (some q) = .ok s' ∧
      Represents s' { a with wait := Function.update a.wait q (kind.left (a.wait q)) } ∧
      s'.skeleton = s.skeleton.wakeUp (kind.removed (a.wait q))) ∧
    ((∃ t ∈ kind.removed (a.wait q), ¬ Waitable s t) →
      wakeLocked kind s (some q) = .error (.panic .wakeupNonWaiting)) := by
  cases kind with
  | all => exact wakeAllLoop_eq h rfl (h.wait_length q)
  | one =>
    cases hl : a.wait q with
    | nil =>
      refine ⟨fun _ => ⟨s, ?_, ?_, by simp [WakeKind.removed]⟩, by simp [WakeKind.removed]⟩
      · simp [wakeLocked, waitQueueWakeOneLocked, waitQueueRemoveHeadLocked_of_nil h hl,
          waitQueueMarkReadyLocked]
      · have : WakeKind.one.left [] = a.wait q := hl.symm
        rw [this, Function.update_eq_self]
        exact h
    | cons t l =>
      obtain ⟨hok, hbad⟩ := wakeHead_eq h hl
      constructor
      · intro hall
        obtain ⟨s', hw, hr, hs⟩ := hok (hall t (by simp [WakeKind.removed]))
        refine ⟨s', hw, hr, ?_⟩
        rw [hs]
        have := wakeUp_cons (s := s.skeleton) (t := t) []
        rwa [wakeUp_nil] at this
      · rintro ⟨u, hu, hnw⟩
        obtain rfl : u = t := by simpa [WakeKind.removed] using hu
        exact hbad hnw

end

end Tianole.Sched
