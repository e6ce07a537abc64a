import Mathlib.Data.List.Perm.Subperm
import Tianole.Lib.Links
import Tianole.Sched.Wait

/-! The linked structure of the scheduler seen as lists. `Represents s a` says that the
pointers of `s` spell the lists of `a`; `skeleton` is what is left when all links are
erased. Each operation is described by its effect on the two. -/
namespace Tianole.Sched
open Links

/-- The run queue and every wait queue as lists, oldest first. -/
structure Shape where
  run : List ThreadPtr
  wait : QueuePtr → List ThreadPtr

structure Represents (s : Scheduler) (a : Shape) : Prop where
  run : Path s.links s.runQueueHead a.run none
  runTail : s.runQueueTail = a.run.getLast?
  wait : ∀ q, Path s.waitLinks (s.queue q).head (a.wait q) none
  waitTail : ∀ q, (s.queue q).tail = (a.wait q).getLast?
  waitSub : ∀ q, ∀ t ∈ a.wait q, t ∈ a.run
  owner : ∀ q, ∀ t ∈ a.run, t ∈ a.wait q ↔ (s.thread t).waitQueue = some q
  unlinked : ∀ t ∈ a.run, (s.thread t).waitQueue = none → (s.thread t).waitNext = none
  allocated : ∀ t, s.allocated t = true ↔ t ∈ a.run
  created : a.run.length ≤ s.created

/-- The scheduler without its links. -/
def Scheduler.skeleton (s : Scheduler) : Scheduler :=
  { s with
    thread := fun t => { s.thread t with next := none, waitNext := none }
    queue := fun _ => ⟨none, none⟩
    runQueueHead := none
    runQueueTail := none }

section Skeleton
variable (s : Scheduler) (t u : ThreadPtr)

@[simp] theorem skeleton_state : (s.skeleton.thread t).state = (s.thread t).state := rfl
@[simp] theorem skeleton_wakeTick : (s.skeleton.thread t).wakeTick = (s.thread t).wakeTick := rfl
@[simp] theorem skeleton_waitQueue :
    (s.skeleton.thread t).waitQueue = (s.thread t).waitQueue := rfl

theorem skeleton_modifyThread {f g : Thread → Thread}
    (h : ∀ x, { f x with next := none, waitNext := none } =
      g { x with next := none, waitNext := none }) :
    (s.modifyThread t f).skeleton = s.skeleton.modifyThread t g := by
  simp only [Scheduler.skeleton, Scheduler.modifyThread]
  congr 1
  funext u
  by_cases hu : u = t
  · subst hu; simp [h]
  · simp [hu]

@[simp] theorem skeleton_withState (state : ThreadState) (wake : ℕ) :
    (s.withState t state wake).skeleton = s.skeleton.withState t state wake :=
  skeleton_modifyThread s t fun _ => rfl

/-- Changing only links changes nothing else. -/
theorem skeleton_relink {f : Thread → Thread}
    (h : ∀ x, { f x with next := none, waitNext := none } =
      { x with next := none, waitNext := none }) :
    (s.modifyThread t f).skeleton = s.skeleton := by
  rw [skeleton_modifyThread s t (g := fun x => x) h]
  simp only [Scheduler.modifyThread, Function.update_eq_self]

@[simp] theorem skeleton_setNext (p : Option ThreadPtr) :
    (s.setNext t p).skeleton = s.skeleton := skeleton_relink s t fun _ => rfl

@[simp] theorem skeleton_setWaitNext (p : Option ThreadPtr) :
    (s.setWaitNext t p).skeleton = s.skeleton := skeleton_relink s t fun _ => rfl

variable {s s' : Scheduler}

theorem skeleton_eq_waitQueue (h : s'.skeleton = s.skeleton) (t : ThreadPtr) :
    (s'.thread t).waitQueue = (s.thread t).waitQueue := by
  rw [← skeleton_waitQueue, h, skeleton_waitQueue]

theorem skeleton_eq_allocated (h : s'.skeleton = s.skeleton) : s'.allocated = s.allocated := by
  have := congrArg Scheduler.allocated h
  exact this

theorem skeleton_eq_created (h : s'.skeleton = s.skeleton) : s'.created = s.created := by
  have := congrArg Scheduler.created h
  exact this

end Skeleton

section Represents
variable {s s' : Scheduler} {a : Shape} {t : ThreadPtr} {q : QueuePtr}

theorem Represents.nodup (h : Represents s a) : a.run.Nodup := path_nodup h.run

theorem Represents.wait_nodup (h : Represents s a) (q : QueuePtr) : (a.wait q).Nodup :=
  path_nodup (h.wait q)

theorem Represents.wait_length (h : Represents s a) (q : QueuePtr) :
    (a.wait q).length ≤ s.created :=
  Nat.le_trans (List.subperm_of_subset (h.wait_nodup q) (h.waitSub q)).length_le h.created

/-- Only links, wait-queue owners and the allocation record matter. -/
theorem Represents.congr (h : Represents s a) (hl : s'.links = s.links)
    (hw : s'.waitLinks = s.waitLinks) (hh : s'.runQueueHead = s.runQueueHead)
    (ht : s'.runQueueTail = s.runQueueTail) (hq : s'.queue = s.queue)
    (ho : ∀ t, (s'.thread t).waitQueue = (s.thread t).waitQueue)
    (ha : s'.allocated = s.allocated) (hc : s'.created = s.created) : Represents s' a where
  run := by rw [hl, hh]; exact h.run
  runTail := by rw [ht]; exact h.runTail
  wait q := by rw [hw, hq]; exact h.wait q
  waitTail q := by rw [hq]; exact h.waitTail q
  waitSub := h.waitSub
  owner q t hm := by rw [ho]; exact h.owner q t hm
  unlinked t hm := by
    have : (s'.thread t).waitNext = (s.thread t).waitNext := congrFun hw t
    rw [ho, this]
    exact h.unlinked t hm
  allocated := by rw [ha]; exact h.allocated
  created := by rw [hc]; exact h.created

theorem Represents.withState (h : Represents s a) (t : ThreadPtr) (state : ThreadState)
    (wake : ℕ) : Represents (s.withState t state wake) a :=
  h.congr (by simp) (by simp) rfl rfl rfl (by simp) rfl rfl

end Represents

end Tianole.Sched
