import Tianole.Errno
import Tianole.Lib.Links
import Tianole.Lib.Runs

/-! The system workqueue of `kernel/workqueue.c`: caller-owned items on one intrusive list, and
the worker that runs their callbacks. Every locked section is one step. -/
namespace Tianole.Work
open Links Runs

/-- Address of a `struct work_struct`. -/
abbrev WorkPtr := ℕ

structure WorkStruct where
  func : Option ℕ
  next : Option WorkPtr
  pending : Bool
  deriving DecidableEq, Repr

/-- `struct workqueue` without its wait queue, and the items that callers own. -/
structure Workqueue where
  work : WorkPtr → WorkStruct
  head : Option WorkPtr
  tail : Option WorkPtr
  initialized : Bool

namespace Workqueue

def modify (q : Workqueue) (w : WorkPtr) (f : WorkStruct → WorkStruct) : Workqueue :=
  { q with work := Function.update q.work w (f (q.work w)) }

/-- The queue link of every item. -/
def links (q : Workqueue) : WorkPtr → Option WorkPtr := fun w => (q.work w).next

theorem modify_work (q : Workqueue) (w u : WorkPtr) (f : WorkStruct → WorkStruct) :
    (q.modify w f).work u = if u = w then f (q.work w) else q.work u := by
  by_cases h : u = w
  · subst h; simp [modify]
  · simp [modify, h]

theorem links_modify (q : Workqueue) (w : WorkPtr) (f : WorkStruct → WorkStruct) :
    (q.modify w f).links = Function.update q.links w (f (q.work w)).next := by
  funext u
  by_cases h : u = w
  · subst h; simp [links, modify]
  · simp [links, modify, h]

end Workqueue

def workInit (q : Workqueue) (work : Option WorkPtr) (func : Option ℕ) : Workqueue :=
  match work with
  | none => q
  | some w => q.modify w fun _ => ⟨func, none, false⟩

def workqueueHasWork (q : Workqueue) : Bool := q.head.isSome

def workqueuePop (q : Workqueue) : Workqueue × Option WorkPtr :=
  match q.head with
  | none => (q, none)
  | some w =>
      let head := (q.work w).next
      let q := { q with head := head, tail := if head = none then none else q.tail }
      (q.modify w fun x => { x with next := none, pending := false }, some w)

/-- The locked part of `queue_work` once the item is known to be idle. -/
def appendWork (q : Workqueue) (w : WorkPtr) : Workqueue :=
  let q := q.modify w fun x => { x with next := none, pending := true }
  let q := match q.tail with
    | some tail => q.modify tail fun x => { x with next := some w }
    | none => { q with head := some w }
  { q with tail := some w }

/-- A waiter is woken exactly when 0 is returned. -/
def queueWork (q : Workqueue) (work : Option WorkPtr) : Workqueue × ℤ :=
  if q.initialized = false then (q, -Errno.inval)
  else match work with
    | none => (q, -Errno.inval)
    | some w =>
        if (q.work w).func = none then (q, -Errno.inval)
        else if (q.work w).pending then (q, -Errno.busy)
        else (appendWork q w, 0)

/-! ### The worker among its callers -/

/-- Where `workqueue_thread` stands: in `wait_queue_wait`, before `workqueue_pop`, before the
call of an item's callback, and inside that call. -/
inductive Worker where
  | waiting
  | popping
  | calling (w : WorkPtr)
  | inside (w : WorkPtr)
  deriving DecidableEq, Repr

/-- The queue, the worker, and what has happened: the items initialised, the items of all
calls of `queue_work` that returned 0, those that were popped, and those whose callback was
entered. -/
structure WorkSystem where
  queue : Workqueue
  worker : Worker
  initialised : WorkPtr → Bool
  accepted : List WorkPtr
  popped : List WorkPtr
  entered : List WorkPtr

/-- Callers are threads, interrupts and callbacks alike. -/
inductive WorkAction where
  | init (w : WorkPtr) (func : Option ℕ)
  | queue (work : Option WorkPtr)
  | worker
  deriving DecidableEq, Repr

/-- A call through a null function pointer. -/
inductive WorkStop where
  | nullCall
  deriving DecidableEq, Repr

namespace WorkSystem

def queued (σ : WorkSystem) (work : Option WorkPtr) : WorkSystem :=
  let (queue, ret) := queueWork σ.queue work
  { σ with queue := queue, accepted := if ret = 0 then σ.accepted ++ work.toList else σ.accepted }

def workerStep (σ : WorkSystem) : Except WorkStop WorkSystem :=
  match σ.worker with
  | .waiting => .ok { σ with worker := if workqueueHasWork σ.queue then .popping else .waiting }
  | .popping =>
      match workqueuePop σ.queue with
      | (_, none) => .ok { σ with worker := .waiting }
      | (queue, some w) =>
          .ok { σ with queue := queue, worker := .calling w, popped := σ.popped ++ [w] }
  | .calling w =>
      if (σ.queue.work w).func = none then .error .nullCall
      else .ok { σ with worker := .inside w, entered := σ.entered ++ [w] }
  | .inside _ => .ok { σ with worker := .popping }

def step (σ : WorkSystem) : WorkAction → Except WorkStop WorkSystem
  | .init w func => .ok { σ with
      queue := workInit σ.queue (some w) func, initialised := Function.update σ.initialised w true }
  | .queue work => .ok (σ.queued work)
  | .worker => σ.workerStep

/-- Items are initialised before their first use. -/
def Admissible (σ : WorkSystem) : WorkAction → Prop
  | .init w _ => w ∉ σ.accepted
  | .queue (some w) => σ.initialised w = true
  | _ => True

instance (σ : WorkSystem) : (act : WorkAction) → Decidable (σ.Admissible act)
  | .init w _ => inferInstanceAs (Decidable (w ∉ σ.accepted))
  | .queue (some w) => inferInstanceAs (Decidable (σ.initialised w = true))
  | .queue none => isTrue trivial
  | .worker => isTrue trivial

/-- After `workqueue_init`; the memory of the items is arbitrary. -/
def Initial (σ : WorkSystem) : Prop :=
  ∃ work, σ = ⟨⟨work, none, none, true⟩, .waiting, fun _ => false, [], [], []⟩

def Reachable : WorkSystem → Prop := Reach step Initial Admissible

end WorkSystem

/-! ### What the operations do to the list -/

/-- The pointers spell the list `l`, oldest item first. -/
structure Listed (q : Workqueue) (l : List WorkPtr) : Prop where
  path : Path q.links q.head l none
  tail : q.tail = l.getLast?

section
variable {q : Workqueue} {l : List WorkPtr} {w u : WorkPtr}

theorem Listed.nodup (h : Listed q l) : l.Nodup := path_nodup h.path

/-- The item is marked as queued before it is linked. -/
def markPending (q : Workqueue) (w : WorkPtr) : Workqueue :=
  q.modify w fun x => { x with next := none, pending := true }

theorem appendWork_of_empty (h : q.tail = none) :
    appendWork q w = { markPending q w with head := some w, tail := some w } := by
  have htail : (markPending q w).tail = none := h
  simp only [appendWork, markPending] at htail ⊢
  rw [htail]

theorem appendWork_of_tail (h : q.tail = some u) : appendWork q w =
    { (markPending q w).modify u fun x => { x with next := some w } with tail := some w } := by
  have htail : (markPending q w).tail = some u := h
  simp only [appendWork, markPending] at htail ⊢
  rw [htail]

theorem markPending_work (u : WorkPtr) : ((markPending q w).work u).pending =
    (decide (u = w) || (q.work u).pending) ∧
      ((markPending q w).work u).func = (q.work u).func := by
  rw [markPending, Workqueue.modify_work]
  by_cases hu : u = w
  · subst hu; simp
  · simp [hu]

theorem appendWork_work (u : WorkPtr) : ((appendWork q w).work u).pending =
    (decide (u = w) || (q.work u).pending) ∧ ((appendWork q w).work u).func = (q.work u).func := by
  cases htail : q.tail with
  | none => rw [appendWork_of_empty htail]; exact markPending_work u
  | some b =>
    rw [appendWork_of_tail htail]
    have hlink : ((markPending q w).modify b fun x => { x with next := some w }).work u =
        if u = b then { (markPending q w).work b with next := some w }
        else (markPending q w).work u := Workqueue.modify_work _ _ _ _
    simp only [hlink]
    by_cases hu : u = b
    · subst hu; simpa using markPending_work u
    · simpa [hu] using markPending_work u

theorem appendWork_initialized : (appendWork q w).initialized = q.initialized := by
  cases htail : q.tail with
  | none => rw [appendWork_of_empty htail]; rfl
  | some b => rw [appendWork_of_tail htail]; rfl

theorem appendWork_listed (h : Listed q l) (hw : w ∉ l) : Listed (appendWork q w) (l ++ [w]) := by
  have hmark : (markPending q w).links = Function.update q.links w none :=
    Workqueue.links_modify _ _ _
  rcases List.eq_nil_or_concat' l with rfl | ⟨front, last, rfl⟩
  · rw [appendWork_of_empty h.tail]
    refine ⟨⟨rfl, ?_⟩, rfl⟩
    change (markPending q w).links w = none
    rw [hmark, Function.update_self]
  · have htail : q.tail = some last := by rw [h.tail]; simp
    rw [appendWork_of_tail htail]
    have hlinks : ((markPending q w).modify last fun x => { x with next := some w }).links =
        Function.update (Function.update q.links w none) last (some w) := by
      rw [Workqueue.links_modify, hmark]
    refine ⟨?_, by simp⟩
    have hpath := path_concat h.path hw
    rw [← hlinks] at hpath
    exact hpath

theorem workqueuePop_nil (h : Listed q []) : workqueuePop q = (q, none) := by
  have hhead : q.head = none := h.path
  simp [workqueuePop, hhead]

theorem workqueuePop_cons (h : Listed q (w :: l)) : ∃ q', workqueuePop q = (q', some w) ∧
    Listed q' l ∧ q'.initialized = q.initialized ∧ ∀ u,
      (q'.work u).pending = (decide (u ≠ w) && (q.work u).pending) ∧
        (q'.work u).func = (q.work u).func := by
  obtain ⟨hhead, hrest⟩ := h.path
  have hw : w ∉ l := (List.nodup_cons.mp h.nodup).1
  have hnext : (q.work w).next = l.head? := path_head hrest
  refine ⟨({ q with head := (q.work w).next, tail := if (q.work w).next = none then none
    else q.tail } : Workqueue).modify w fun x => { x with next := none, pending := false },
    by simp only [workqueuePop, hhead], ⟨?_, ?_⟩, rfl, fun u => ?_⟩
  · rw [Workqueue.links_modify]
    exact (path_update hw).mpr hrest
  · simp only [Workqueue.modify, hnext, h.tail]
    cases l with
    | nil => rfl
    | cons a l => simp
  · rw [Workqueue.modify_work]
    by_cases hu : u = w
    · subst hu; simp
    · simp [hu]

end

/-! ### Every item is delivered once, in order -/

/-- The item that has been popped and whose callback has not been entered. -/
def Worker.atHand : Worker → List WorkPtr
  | .calling w => [w]
  | _ => []

/-- What has been accepted is what has been popped and then what is on the list. -/
structure Delivered (σ : WorkSystem) (l : List WorkPtr) : Prop where
  listed : Listed σ.queue l
  accepted : σ.accepted = σ.popped ++ l
  entered : σ.popped = σ.entered ++ σ.worker.atHand
  pending : ∀ w, σ.initialised w = true → ((σ.queue.work w).pending = true ↔ w ∈ l)
  known : ∀ w ∈ σ.accepted, σ.initialised w = true ∧ (σ.queue.work w).func ≠ none
  ready : σ.queue.initialized = true

section
variable {σ σ' : WorkSystem} {l : List WorkPtr} {w : WorkPtr}

theorem Delivered.queueWork_eq (h : Delivered σ l) (hw : σ.initialised w = true)
    (hf : (σ.queue.work w).func ≠ none) : queueWork σ.queue (some w) =
      if w ∈ l then (σ.queue, -Errno.busy) else (appendWork σ.queue w, 0) := by
  simp only [queueWork, h.ready, Bool.true_eq_false, if_false, hf, h.pending w hw]

/-- No step but `work_init` touches what an item is for. -/
def WorkSystem.Keeps (σ σ' : WorkSystem) : Prop :=
  σ'.initialised = σ.initialised ∧ ∀ u, (σ'.queue.work u).func = (σ.queue.work u).func

theorem Delivered.queued (h : Delivered σ l) (work : Option WorkPtr)
    (hadm : σ.Admissible (.queue work)) : ∃ l', Delivered (σ.queued work) l' ∧ l ⊆ l' ∧
      (∀ w, work = some w → (σ.queue.work w).func ≠ none → w ∈ l') ∧ σ.Keeps (σ.queued work) := by
  have hsame (hret : (queueWork σ.queue work) = (σ.queue, -Errno.inval) ∨
      (queueWork σ.queue work) = (σ.queue, -Errno.busy)) : σ.queued work = σ := by
    rcases hret with hret | hret <;> simp [WorkSystem.queued, hret, Errno.inval, Errno.busy]
  cases work with
  | none =>
    rw [hsame (.inl (by simp [queueWork]))]
    exact ⟨l, h, List.Subset.refl l, by simp, rfl, fun _ => rfl⟩
  | some w =>
    by_cases hf : (σ.queue.work w).func = none
    · rw [hsame (.inl (by simp [queueWork, hf]))]
      refine ⟨l, h, List.Subset.refl l, fun u hu hfu => ?_, rfl, fun _ => rfl⟩
      obtain rfl := Option.some.inj hu
      exact absurd hf hfu
    · have heq := h.queueWork_eq hadm hf
      by_cases hw : w ∈ l
      · rw [if_pos hw] at heq
        rw [hsame (.inr heq)]
        refine ⟨l, h, List.Subset.refl l, fun u hu _ => ?_, rfl, fun _ => rfl⟩
        rwa [← Option.some.inj hu]
      · rw [if_neg hw] at heq
        have hq : σ.queued (some w) =
            { σ with queue := appendWork σ.queue w, accepted := σ.accepted ++ [w] } := by
          simp [WorkSystem.queued, heq]
        rw [hq]
        refine ⟨l ++ [w], ⟨appendWork_listed h.listed hw, ?_, h.entered, fun u hu => ?_,
          fun u hu => ?_, appendWork_initialized.trans h.ready⟩, List.subset_append_left _ _,
          fun u hu _ => by simp [Option.some.inj hu], rfl, fun u => (appendWork_work u).2⟩
        · rw [h.accepted, List.append_assoc]
        · rw [(appendWork_work u).1]
          simp [h.pending u hu, or_comm]
        · rw [(appendWork_work u).2]
          rcases List.mem_append.mp hu with hu | hu
          · exact h.known u hu
          · rw [List.mem_singleton.mp hu]
            exact ⟨hadm, hf⟩

theorem Delivered.init (h : Delivered σ l) {func : Option ℕ} (hw : w ∉ σ.accepted) :
    Delivered { σ with queue := workInit σ.queue (some w) func,
                       initialised := Function.update σ.initialised w true } l := by
  have hwl : w ∉ l := fun hm => hw (by rw [h.accepted]; exact List.mem_append_right _ hm)
  refine ⟨⟨?_, h.listed.tail⟩, h.accepted, h.entered, fun u hu => ?_, fun u hu => ?_, h.ready⟩
  · simp only [workInit]
    rw [Workqueue.links_modify]
    exact (path_update hwl).mpr h.listed.path
  · simp only [workInit, Workqueue.modify_work]
    by_cases he : u = w
    · subst he; simp [hwl]
    · replace hu : Function.update σ.initialised w true u = true := hu
      rw [Function.update_of_ne he] at hu
      simpa [he] using h.pending u hu
  · have hne : u ≠ w := by rintro rfl; exact hw hu
    simp only [workInit, Workqueue.modify_work, hne, if_false, Function.update_of_ne hne]
    exact h.known u hu

/-- One step of the worker; a null callback is never met, and an item leaves the list only
into the worker's hands. -/
theorem Delivered.worker (h : Delivered σ l) : ∃ σ' l', σ.workerStep = .ok σ' ∧ Delivered σ' l' ∧
    (∀ w ∈ l, w ∈ l' ∨ σ'.worker = .calling w) ∧ σ.Keeps σ' := by
  unfold WorkSystem.workerStep
  cases hw : σ.worker with
  | waiting =>
    refine ⟨_, l, rfl, ⟨h.listed, h.accepted, ?_, h.pending, h.known, h.ready⟩,
      fun w hm => .inl hm, rfl, fun _ => rfl⟩
    rw [h.entered, hw]
    simp only
    split <;> rfl
  | popping =>
    have hentered : σ.popped = σ.entered := by simpa [hw, Worker.atHand] using h.entered
    cases l with
    | nil =>
      rw [workqueuePop_nil h.listed]
      exact ⟨_, [], rfl, ⟨h.listed, h.accepted, by simpa [Worker.atHand] using hentered, h.pending,
        h.known, h.ready⟩, by simp, rfl, fun _ => rfl⟩
    | cons w l =>
      obtain ⟨q', hpop, hlisted, hinit, hwork⟩ := workqueuePop_cons h.listed
      rw [hpop]
      have hnot : w ∉ l := (List.nodup_cons.mp h.listed.nodup).1
      refine ⟨_, l, rfl, ⟨hlisted, by simpa using h.accepted, ?_, fun u hu => ?_, fun u hu => ?_,
        hinit.trans h.ready⟩, fun u hu => ?_, rfl, fun u => (hwork u).2⟩
      · simp [Worker.atHand, hentered]
      · rw [(hwork u).1]
        have hp := h.pending u hu
        by_cases he : u = w
        · subst he; simp [hnot]
        · simpa [he] using hp
      · rw [(hwork u).2]
        exact h.known u hu
      · rcases List.mem_cons.mp hu with rfl | hu
        · exact .inr rfl
        · exact .inl hu
  | calling w =>
    have hmem : w ∈ σ.accepted := by
      rw [h.accepted, h.entered, hw]
      simp [Worker.atHand]
    simp only [(h.known w hmem).2, if_false]
    exact ⟨_, l, rfl, ⟨h.listed, h.accepted, by simpa [hw, Worker.atHand] using h.entered, h.pending,
      h.known, h.ready⟩, fun w hm => .inl hm, rfl, fun _ => rfl⟩
  | inside w =>
    exact ⟨_, l, rfl, ⟨h.listed, h.accepted, by simpa [hw, Worker.atHand] using h.entered, h.pending,
      h.known, h.ready⟩, fun w hm => .inl hm, rfl, fun _ => rfl⟩

theorem Delivered.step (h : Delivered σ l) {act : WorkAction} (hadm : σ.Admissible act) :
    ∃ σ' l', σ.step act = .ok σ' ∧ Delivered σ' l' := by
  cases act with
  | init w func => exact ⟨_, l, rfl, h.init hadm⟩
  | queue work =>
    obtain ⟨l', hd, -⟩ := h.queued work hadm
    exact ⟨_, l', rfl, hd⟩
  | worker =>
    obtain ⟨σ', l', hs, hd, -⟩ := h.worker
    exact ⟨σ', l', hs, hd⟩

theorem reachable_delivered (h : σ.Reachable) : ∃ l, Delivered σ l := by
  refine Reach.invariant (I := fun σ => ∃ l, Delivered σ l) h ?_ ?_
  · rintro σ ⟨work, rfl⟩
    exact ⟨[], ⟨rfl, rfl⟩, rfl, rfl, by simp, by simp, rfl⟩
  · rintro σ act σ' ⟨l, hd⟩ hadm hs
    obtain ⟨σ'', l', hs', hd'⟩ := hd.step hadm
    obtain rfl := Except.ok.inj (hs.symm.trans hs')
    exact ⟨l', hd'⟩

theorem Delivered.list_eq {l' : List WorkPtr} (h : Delivered σ l) (h' : Delivered σ' l')
    (ha : σ'.accepted = σ.accepted) (hp : σ'.popped = σ.popped) : l' = l := by
  have hlists := h'.accepted.symm.trans (ha.trans h.accepted)
  rw [hp] at hlists
  exact List.append_cancel_left hlists

/-- Left to itself, a worker that is about to pop runs everything that has been accepted. -/
theorem Delivered.drain (h : Delivered σ l) (hw : σ.worker = .popping) : ∃ n σ',
    exec WorkSystem.step σ (List.replicate n .worker) = .ok σ' ∧ σ'.entered = σ.accepted := by
  induction l generalizing σ with
  | nil =>
    refine ⟨0, σ, rfl, ?_⟩
    rw [h.accepted, h.entered, hw]
    simp [Worker.atHand]
  | cons w l ih =>
    obtain ⟨q', hpop, -⟩ := workqueuePop_cons h.listed
    -- Three steps: pop the item, enter its callback, return from it.
    have h₁ : σ.step .worker = .ok { σ with
        queue := q', worker := .calling w, popped := σ.popped ++ [w] } := by
      simp only [WorkSystem.step, WorkSystem.workerStep, hw, hpop]
    obtain ⟨σ₁, l₁, hs₁, hd₁, -⟩ := h.worker
    obtain rfl := Except.ok.inj (h₁.symm.trans hs₁)
    obtain rfl : l₁ = l := by simpa [h.accepted] using hd₁.accepted.symm
    have hfunc : (q'.work w).func ≠ none := by
      refine (hd₁.known w ?_).2
      rw [hd₁.accepted]
      simp
    obtain ⟨σ₂, l₂, hs₂, hd₂, -⟩ := hd₁.worker
    simp only [WorkSystem.workerStep, hfunc, if_false] at hs₂
    obtain rfl := Except.ok.inj hs₂
    obtain rfl := hd₁.list_eq hd₂ rfl rfl
    obtain ⟨σ₃, l₃, hs₃, hd₃, -⟩ := hd₂.worker
    obtain rfl := Except.ok.inj hs₃
    obtain rfl := hd₂.list_eq hd₃ rfl rfl
    obtain ⟨n, σ', hexec, hdone⟩ := ih hd₃ rfl
    refine ⟨n + 3, σ', ?_, hdone⟩
    simp only [List.replicate_succ, exec, h₁, Except.bind]
    simpa only [WorkSystem.step, WorkSystem.workerStep, hfunc, if_false, Except.bind] using hexec

/-- From wherever it stands, the worker comes to run everything that has been accepted. -/
theorem Delivered.completes (h : Delivered σ l) : ∃ n σ',
    exec WorkSystem.step σ (List.replicate n .worker) = .ok σ' ∧ σ'.entered = σ.accepted := by
  obtain ⟨σ₁, l₁, hs, hd, -⟩ := h.worker
  have hnext (n : ℕ) : exec WorkSystem.step σ (List.replicate (n + 1) .worker) =
      exec WorkSystem.step σ₁ (List.replicate n .worker) := by
    simp only [List.replicate_succ, exec, WorkSystem.step, hs, Except.bind]
  cases hw : σ.worker with
  | popping => exact h.drain hw
  | inside w =>
    obtain rfl : { σ with worker := .popping } = σ₁ := by
      simpa [WorkSystem.workerStep, hw] using hs
    obtain ⟨n, σ', hexec, hdone⟩ := hd.drain rfl
    exact ⟨n + 1, σ', by rw [hnext]; exact hexec, hdone⟩
  | waiting =>
    cases l with
    | nil =>
      refine ⟨0, σ, rfl, ?_⟩
      rw [h.accepted, h.entered, hw]
      simp [Worker.atHand]
    | cons w l =>
      obtain rfl : { σ with worker := .popping } = σ₁ := by
        simpa [WorkSystem.workerStep, hw, workqueueHasWork, h.listed.path.1] using hs
      obtain ⟨n, σ', hexec, hdone⟩ := hd.drain rfl
      exact ⟨n + 1, σ', by rw [hnext]; exact hexec, hdone⟩
  | calling w =>
    have hmem : w ∈ σ.accepted := by
      rw [h.accepted, h.entered, hw]
      simp [Worker.atHand]
    obtain rfl : { σ with worker := .inside w, entered := σ.entered ++ [w] } = σ₁ := by
      simpa [WorkSystem.workerStep, hw, (h.known w hmem).2] using hs
    obtain ⟨σ₂, l₂, hs₂, hd₂, -⟩ := hd.worker
    obtain rfl := Except.ok.inj hs₂
    obtain ⟨n, σ', hexec, hdone⟩ := hd₂.drain rfl
    refine ⟨n + 2, σ', ?_, hdone⟩
    rw [hnext]
    simpa only [List.replicate_succ, exec, WorkSystem.step, WorkSystem.workerStep, Except.bind]
      using hexec

end

/-- In every reachable state the items that are not yet popped are the list from head to tail;
what has been popped is the rest of what was accepted, in order, and its callbacks are run.
`queue_work` answers `-EBUSY` exactly for the items on the list. -/
theorem workqueue_delivers {σ : WorkSystem} (h : σ.Reachable) : ∃ l,
    Path σ.queue.links σ.queue.head l none ∧ σ.queue.tail = l.getLast? ∧ l.Nodup ∧
      σ.accepted = σ.popped ++ l ∧ σ.popped = σ.entered ++ σ.worker.atHand ∧
      (∀ w, σ.initialised w = true → ((σ.queue.work w).pending = true ↔ w ∈ l)) ∧
      (∀ w, σ.initialised w = true → (σ.queue.work w).func ≠ none →
        ((queueWork σ.queue (some w)).2 = -Errno.busy ↔ w ∈ l) ∧
        ((queueWork σ.queue (some w)).2 = 0 ↔ w ∉ l) ∧
        (w ∈ l → σ.step (.queue (some w)) = .ok σ)) ∧
      (∀ act, σ.Admissible act → ∃ σ', σ.step act = .ok σ') ∧
      ∃ n σ', exec WorkSystem.step σ (List.replicate n .worker) = .ok σ' ∧
        σ'.entered = σ.accepted := by
  obtain ⟨l, hd⟩ := reachable_delivered h
  refine ⟨l, hd.listed.path, hd.listed.tail, hd.listed.nodup, hd.accepted, hd.entered, hd.pending,
    fun w hw hf => ?_, fun act hadm => ?_, hd.completes⟩
  · have heq := hd.queueWork_eq hw hf
    refine ⟨?_, ?_, fun hm => ?_⟩
    · rw [heq]
      split <;> simp_all [Errno.busy]
    · rw [heq]
      split <;> simp_all [Errno.busy]
    · rw [if_pos hm] at heq
      simp [WorkSystem.step, WorkSystem.queued, heq, Errno.busy]
  · obtain ⟨σ', l', hs, -⟩ := hd.step hadm
    exact ⟨σ', hs⟩

/-- The queue of a kernel that has just called `workqueue_init`. -/
def WorkSystem.boot : WorkSystem :=
  ⟨⟨fun _ => ⟨none, none, false⟩, none, none, true⟩, .waiting, fun _ => false, [], [], []⟩

/-- Items 3 and 4 are queued; the worker pops item 3, and its callback queues it again. -/
theorem workqueue_delivers_requeued : ∃ σ σ' : WorkSystem, ∃ n, σ.Reachable ∧
    σ.worker = .inside 3 ∧ σ.popped = [3] ∧
    Path σ.queue.links σ.queue.head [4, 3] none ∧ σ.queue.tail = some 3 ∧
    (queueWork σ.queue (some 3)).2 = -Errno.busy ∧ σ.step (.queue (some 4)) = .ok σ ∧
    exec WorkSystem.step σ (List.replicate n .worker) = .ok σ' ∧ σ'.entered = [3, 4, 3] := by
  have hboot : WorkSystem.boot.Reachable := .start ⟨_, rfl⟩
  obtain ⟨σ, hr, hσ⟩ := hboot.admitted_map
    (f := fun σ => (σ.worker, σ.accepted, σ.popped, σ.initialised 3, σ.initialised 4,
      (σ.queue.work 3).func, (σ.queue.work 4).func))
    [.init 3 (some 1), .init 4 (some 1), .queue (some 3), .queue (some 4), .worker, .worker,
      .worker, .queue (some 3)]
    (b := (.inside 3, [3, 4, 3], [3], true, true, some 1, some 1)) rfl
  simp only [Prod.mk.injEq] at hσ
  obtain ⟨hworker, haccepted, hpopped, h₃, h₄, hf₃, hf₄⟩ := hσ
  obtain ⟨l, hpath, htail, -, hl, -, -, hbusy, -, n, σ', hexec, hdone⟩ := workqueue_delivers hr
  obtain rfl : l = [4, 3] := by simpa [haccepted, hpopped] using hl.symm
  exact ⟨σ, σ', n, hr, hworker, hpopped, hpath, htail,
    (hbusy 3 h₃ (by simp [hf₃])).1.mpr (by decide), (hbusy 4 h₄ (by simp [hf₄])).2.2 (by decide),
    hexec, hdone.trans haccepted⟩

end Tianole.Work
