import Tianole.Lib.Cyclic
import Tianole.Sched.Shape

/-! Round-robin selection, after `next_runnable_thread` in `kernel/sched/core.c`: the thread that the
search finds, and the threads whose state it reads on the way. -/
namespace Tianole.Sched
open Links Cyclic

/-! ### The search with the threads that it examines -/

/-- What a search loop did: the threads whose state it read, and the thread that it found. -/
structure Scan where
  examined : List ThreadPtr
  found : Option ThreadPtr
  deriving DecidableEq, Repr

def Scan.after (r : Scan) (t : ThreadPtr) : Scan := { r with examined := t :: r.examined }

/-- The first search loop. -/
def examineToEnd (s : Scheduler) : ℕ → Option ThreadPtr → Except Stop Scan
  | _, none => .ok ⟨[], none⟩
  | 0, some _ => .error .hang
  | n + 1, some t =>
      if runnable s t then .ok ⟨[t], some t⟩
      else (examineToEnd s n (s.thread t).next).map (·.after t)

/-- The second search loop. -/
def examineUntil (s : Scheduler) (start : Option ThreadPtr) :
    ℕ → Option ThreadPtr → Except Stop Scan
  | 0, thread => if thread = start then .ok ⟨[], none⟩ else .error .hang
  | n + 1, thread =>
      if thread = start then .ok ⟨[], none⟩
      else match thread with
        | none => .error .fault
        | some t =>
            if runnable s t then .ok ⟨[t], some t⟩
            else (examineUntil s start n (s.thread t).next).map (·.after t)

/-- What `next_runnable_thread` did: the threads that its loops examined, the thread whose state
was read behind them, and the return value. -/
structure Selection where
  loops : List ThreadPtr
  final : List ThreadPtr
  result : Option ThreadPtr
  deriving DecidableEq, Repr

/-- `next_runnable_thread`, with at most `n` rounds for each loop. -/
def selectThread (s : Scheduler) (n : ℕ) : Except Stop Selection :=
  (examineToEnd s n (searchStart s)).bind fun first =>
    match first.found with
    | some t => .ok ⟨first.examined, [], some t⟩
    | none =>
      (examineUntil s (searchStart s) n s.runQueueHead).bind fun second =>
        match second.found with
        | some t => .ok ⟨first.examined ++ second.examined, [], some t⟩
        | none => .ok ⟨first.examined ++ second.examined, s.idleThread.toList,
            if threadIsReady s s.idleThread then s.idleThread else none⟩

section
variable {s : Scheduler} {a : Shape} {t : ThreadPtr}

theorem scanToEnd_eq_examine (s : Scheduler) (n : ℕ) (p : Option ThreadPtr) :
    scanToEnd s n p = (examineToEnd s n p).map Scan.found := by
  induction n generalizing p with
  | zero => cases p <;> rfl
  | succ n ih =>
    cases p with
    | none => rfl
    | some t =>
      rw [scanToEnd, examineToEnd, ih]
      split
      · rfl
      · cases examineToEnd s n (s.thread t).next <;> rfl

theorem scanUntil_eq_examine (s : Scheduler) (start : Option ThreadPtr) (n : ℕ)
    (p : Option ThreadPtr) :
    scanUntil s start n p = (examineUntil s start n p).map Scan.found := by
  induction n generalizing p with
  | zero =>
    rw [scanUntil, examineUntil]
    split <;> rfl
  | succ n ih =>
    cases p with
    | none =>
      simp only [scanUntil, examineUntil]
      split <;> rfl
    | some t =>
      simp only [scanUntil, examineUntil, ih]
      split
      · rfl
      · split
        · rfl
        · cases examineUntil s start n (s.thread t).next <;> rfl

/-- The search of the scheduler is this one. -/
theorem nextRunnableThread_eq_select (s : Scheduler) :
    nextRunnableThread s = (selectThread s s.created).map Selection.result := by
  rw [nextRunnableThread, selectThread, scanToEnd_eq_examine]
  cases examineToEnd s s.created (searchStart s) with
  | error e => rfl
  | ok first =>
    obtain ⟨examined, found⟩ := first
    cases found with
    | some t => rfl
    | none =>
      simp only [Except.map, Except.bind, bind, scanUntil_eq_examine]
      cases examineUntil s (searchStart s) s.created s.runQueueHead with
      | error e => rfl
      | ok second =>
        obtain ⟨examined', found'⟩ := second
        cases found' <;> rfl

/-! ### The cyclic order -/

/-- The cyclic order that starts just after `current` and ends with it. -/
def searchOrder (run : List ThreadPtr) : Option ThreadPtr → List ThreadPtr
  | none => run
  | some c => (run.dropWhile (· ≠ c)).tail ++ (run.takeWhile (· ≠ c) ++ [c])

theorem searchOrder_eq_turn (run : List ThreadPtr) (current : Option ThreadPtr) :
    searchOrder run current = turn run current := by
  cases current <;> rfl

theorem searchOrder_split {l₁ l₂ : List ThreadPtr} {c : ThreadPtr} (h : c ∉ l₁) :
    searchOrder (l₁ ++ c :: l₂) (some c) = l₂ ++ (l₁ ++ [c]) := by
  rw [searchOrder_eq_turn, turn_split h]

theorem mem_searchOrder {run : List ThreadPtr} {current : Option ThreadPtr} {t : ThreadPtr}
    (hc : ∀ c, current = some c → c ∈ run) (hn : run.Nodup) :
    t ∈ searchOrder run current ↔ t ∈ run := by
  rw [searchOrder_eq_turn]
  exact (turn_perm hn hc).mem_iff

/-- The two loops of the search together go once around the queue: the first from the start to the
end, the second from the head up to the start. -/
theorem searchOrder_halves {run : List ThreadPtr} (hrun : Path s.links s.runQueueHead run none)
    (hc : ∀ c, s.currentThread = some c → c ∈ run) :
    ∃ A B, searchOrder run s.currentThread = A ++ B ∧ Path s.links (searchStart s) A none ∧
      Path s.links s.runQueueHead B (searchStart s) ∧ ∀ t ∈ B, some t ≠ searchStart s := by
  cases hcur : s.currentThread with
  | none =>
    have hstart : searchStart s = s.runQueueHead := by simp [searchStart, hcur]
    rw [hstart]
    exact ⟨run, [], (List.append_nil _).symm, hrun, rfl, by simp⟩
  | some c =>
    obtain ⟨l₁, l₂, rfl⟩ := List.append_of_mem (hc c hcur)
    have hn := path_nodup hrun
    have hcl : c ∉ l₁ := fun hm => (List.nodup_append.mp hn).2.2 c hm c (by simp) rfl
    have hnext : Path s.links (s.thread c).next l₂ none := path_next hrun
    rw [searchOrder_split hcl]
    cases l₂ with
    | nil =>
      -- Behind the last thread the search starts at the head, as without a current thread.
      have hnone : (s.thread c).next = none := hnext
      have hstart : searchStart s = s.runQueueHead := by simp [searchStart, hcur, hnone]
      rw [hstart]
      exact ⟨l₁ ++ [c], [], (List.append_nil _).symm, hrun, rfl, by simp⟩
    | cons y l₂ =>
      have hsome : (s.thread c).next = some y := hnext.1
      have hstart : searchStart s = some y := by simp [searchStart, hcur, hsome]
      rw [hstart]
      refine ⟨y :: l₂, l₁ ++ [c], rfl, hsome ▸ hnext, ?_, fun t ht he => ?_⟩
      · obtain ⟨r, h₁, hr, -⟩ := path_append.mp hrun
        exact path_append.mpr ⟨r, h₁, hr, hsome⟩
      · obtain rfl := Option.some.inj he
        rcases List.mem_append.mp ht with hm | hm
        · exact (List.nodup_append.mp hn).2.2 t hm t (by simp) rfl
        · obtain rfl := List.mem_singleton.mp hm
          have hnodup := (List.nodup_append.mp hn).2.1
          simp at hnodup

theorem length_searchOrder {run : List ThreadPtr} {current : Option ThreadPtr}
    (hc : ∀ c, current = some c → c ∈ run) (hn : run.Nodup) :
    (searchOrder run current).length = run.length := by
  rw [searchOrder_eq_turn]
  exact (turn_perm hn hc).length_eq

/-! ### What the search finds -/

/-- The elements that a search for `p` looks at. -/
def lookedAt (p : ThreadPtr → Bool) : List ThreadPtr → List ThreadPtr
  | [] => []
  | t :: l => if p t then [t] else t :: lookedAt p l

theorem lookedAt_isPrefix (p : ThreadPtr → Bool) (l : List ThreadPtr) : lookedAt p l <+: l := by
  induction l with
  | nil => exact List.prefix_rfl
  | cons t l ih =>
    rw [lookedAt]
    split
    · exact (List.prefix_append [t] l)
    · exact List.cons_prefix_cons.mpr ⟨rfl, ih⟩

theorem lookedAt_append (p : ThreadPtr → Bool) (A B : List ThreadPtr) : lookedAt p (A ++ B) =
    if (A.find? p).isSome then lookedAt p A else lookedAt p A ++ lookedAt p B := by
  induction A with
  | nil => rfl
  | cons t A ih =>
    rw [List.cons_append, lookedAt, lookedAt, List.find?_cons, ih]
    cases hp : p t with
    | true => rfl
    | false =>
      simp only [Bool.false_eq_true, if_false]
      split <;> rfl

theorem examineToEnd_eq {p : Option ThreadPtr} {l : List ThreadPtr} {n : ℕ}
    (h : Path s.links p l none) (hn : l.length ≤ n) :
    examineToEnd s n p = .ok ⟨lookedAt (runnable s) l, l.find? (runnable s)⟩ := by
  induction l generalizing p n with
  | nil =>
    obtain rfl : p = none := h
    cases n <;> rfl
  | cons t l ih =>
    obtain ⟨rfl, ht⟩ := h
    obtain ⟨n, rfl⟩ : ∃ m, n = m + 1 := ⟨n - 1, by simp at hn; omega⟩
    rw [examineToEnd, List.find?_cons, lookedAt]
    cases hr : runnable s t with
    | true => rfl
    | false =>
      have hrest := ih ht (n := n) (by simpa using hn)
      change examineToEnd s n (s.thread t).next = _ at hrest
      simp only [Bool.false_eq_true, if_false, hrest]
      rfl

theorem examineUntil_eq {p start : Option ThreadPtr} {l : List ThreadPtr} {n : ℕ}
    (h : Path s.links p l start) (hs : ∀ t ∈ l, some t ≠ start) (hn : l.length ≤ n) :
    examineUntil s start n p = .ok ⟨lookedAt (runnable s) l, l.find? (runnable s)⟩ := by
  induction l generalizing p n with
  | nil =>
    obtain rfl : p = start := h
    cases n <;> simp [examineUntil, lookedAt]
  | cons t l ih =>
    obtain ⟨rfl, ht⟩ := h
    obtain ⟨n, rfl⟩ : ∃ m, n = m + 1 := ⟨n - 1, by simp at hn; omega⟩
    have hne := hs t (by simp)
    rw [examineUntil, if_neg hne, List.find?_cons, lookedAt]
    cases hr : runnable s t with
    | true => rfl
    | false =>
      have hrest := ih ht (n := n) (fun u hu => hs u (by simp [hu])) (by simpa using hn)
      change examineUntil s start n (s.thread t).next = _ at hrest
      simp only [Bool.false_eq_true, if_false, hrest]
      rfl

/-- The thread that `next_runnable_thread` picks. -/
def pick (s : Scheduler) (run : List ThreadPtr) : Option ThreadPtr :=
  ((searchOrder run s.currentThread).find? (runnable s)).or
    (if threadIsReady s s.idleThread then s.idleThread else none)

/-- The search returns, and goes along the cyclic order up to what it finds. Only when it finds
nothing, the state of the idle thread is read behind the loops. -/
theorem selectThread_eq {run : List ThreadPtr} {n : ℕ}
    (hrun : Path s.links s.runQueueHead run none)
    (hc : ∀ c, s.currentThread = some c → c ∈ run) (hn : run.length ≤ n) :
    selectThread s n = .ok ⟨lookedAt (runnable s) (searchOrder run s.currentThread),
      if ((searchOrder run s.currentThread).find? (runnable s)).isSome then []
        else s.idleThread.toList, pick s run⟩ := by
  obtain ⟨A, B, horder, hA, hB, hstart⟩ := searchOrder_halves hrun hc
  have hlength := length_searchOrder hc (path_nodup hrun)
  rw [horder, List.length_append] at hlength
  have first := examineToEnd_eq hA (n := n) (by omega)
  have second := examineUntil_eq hB hstart (n := n) (by omega)
  simp only [selectThread, first, second, pick, horder, lookedAt_append, List.find?_append,
    Except.bind]
  cases A.find? (runnable s) <;> cases B.find? (runnable s) <;> rfl

/-- Round-robin selection: the search returns, and returns the first candidate in the
cyclic order, else the idle thread when that is ready. -/
theorem nextRunnableThread_eq (h : Represents s a)
    (hc : ∀ c, s.currentThread = some c → c ∈ a.run) :
    nextRunnableThread s = .ok (pick s a.run) := by
  rw [nextRunnableThread_eq_select, selectThread_eq h.run hc h.created]
  rfl

theorem runnable_iff : runnable s t = true ↔ (s.thread t).state = .ready ∧ some t ≠ s.idleThread := by
  simp [runnable, threadIsReady]

/-- Whatever is picked is ready and on the run queue. -/
theorem pick_ready (h : Represents s a) (hc : ∀ c, s.currentThread = some c → c ∈ a.run)
    (hi : ∀ i, s.idleThread = some i → i ∈ a.run) (hp : pick s a.run = some t) :
    (s.thread t).state = .ready ∧ t ∈ a.run := by
  unfold pick at hp
  cases hf : (searchOrder a.run s.currentThread).find? (runnable s) with
  | some u =>
    rw [hf] at hp
    obtain rfl : u = t := by simpa using hp
    refine ⟨(runnable_iff.mp (List.find?_some hf)).1, ?_⟩
    exact (mem_searchOrder hc h.nodup).mp (List.mem_of_find?_eq_some hf)
  | none =>
    rw [hf, Option.none_or] at hp
    split at hp
    next hr =>
      rw [hp] at hr
      exact ⟨by simpa [threadIsReady] using hr, hi t hp⟩
    next => simp at hp

/-- A lone candidate is picked, wherever it stands. -/
theorem pick_of_alone (h : Represents s a) (hc : ∀ c, s.currentThread = some c → c ∈ a.run)
    (ht : t ∈ a.run) (hr : runnable s t = true) (ho : ∀ u ∈ a.run, u ≠ t → runnable s u = false) :
    pick s a.run = some t := by
  have hmem {u : ThreadPtr} := mem_searchOrder (t := u) hc h.nodup
  cases hf : (searchOrder a.run s.currentThread).find? (runnable s) with
  | none => simp [List.find?_eq_none.mp hf t (hmem.mpr ht)] at hr
  | some u =>
    have hu : u = t := by
      by_contra hne
      have := ho u (hmem.mp (List.mem_of_find?_eq_some hf)) hne
      exact absurd (List.find?_some hf) (by simp [this])
    simp [pick, hf, hu]

/-- The search comes to the current thread last: it is picked only when nobody else can be. -/
theorem pick_current (h : Represents s a) {c : ThreadPtr} (hcur : s.currentThread = some c)
    (hc : c ∈ a.run) (hi : s.idleThread ≠ some c) (hp : pick s a.run = some c) :
    ∀ u ∈ a.run, u ≠ c → runnable s u = false := by
  intro u hu hne
  obtain ⟨l₁, l₂, hl⟩ := List.append_of_mem hc
  have hn := h.nodup
  rw [hl] at hn hu
  have hcl : c ∉ l₁ := fun hm => (List.nodup_append.mp hn).2.2 c hm c (by simp) rfl
  have hcl₂ : c ∉ l₂ := (List.nodup_cons.mp (List.nodup_append.mp hn).2.1).1
  have horder : searchOrder a.run s.currentThread = (l₂ ++ l₁) ++ [c] := by
    rw [hl, hcur, searchOrder_split hcl, List.append_assoc]
  have hu' : u ∈ l₂ ++ l₁ := by
    simp only [List.mem_append, List.mem_cons] at hu ⊢
    tauto
  cases hru : runnable s u with
  | false => rfl
  | true =>
    obtain ⟨w, hw⟩ : ∃ w, (l₂ ++ l₁).find? (runnable s) = some w :=
      Option.isSome_iff_exists.mp (List.find?_isSome.mpr ⟨u, hu', hru⟩)
    have hpick : pick s a.run = some w := by
      rw [pick, horder, List.find?_append, hw]
      rfl
    obtain rfl : w = c := Option.some.inj (hpick.symm.trans hp)
    rcases List.mem_append.mp (List.mem_of_find?_eq_some hw) with hm | hm
    · exact absurd hm hcl₂
    · exact absurd hm hcl

theorem pick_eq_none (hp : pick s a.run = none) : threadIsReady s s.idleThread = false := by
  unfold pick at hp
  cases hi : threadIsReady s s.idleThread with
  | false => rfl
  | true =>
    rw [Option.or_eq_none_iff, hi] at hp
    rw [if_pos rfl] at hp
    rw [hp.2] at hi
    cases hi

end

/-- What the search owes its caller: the first ready thread of the order that is not the idle
thread; the idle thread only if there is none and it is ready; null only if nobody is ready. -/
structure Selects (s : Scheduler) (order : List ThreadPtr) (result : Option ThreadPtr) : Prop where
  first : ∀ t, order.find? (fun u => (s.thread u).state = .ready ∧ some u ≠ s.idleThread) = some t →
    result = some t
  ordinary : ∀ t, result = some t → some t ≠ s.idleThread →
    order.find? (fun u => (s.thread u).state = .ready ∧ some u ≠ s.idleThread) = some t
  idle : ∀ t, result = some t → some t = s.idleThread → (s.thread t).state = .ready ∧
    ∀ u ∈ order, some u ≠ s.idleThread → (s.thread u).state ≠ .ready
  null : result = none → (∀ u ∈ order, (s.thread u).state ≠ .ready) ∧
    ∀ i, s.idleThread = some i → (s.thread i).state ≠ .ready

theorem pick_selects (s : Scheduler) (run : List ThreadPtr) :
    Selects s (searchOrder run s.currentThread) (pick s run) := by
  have hcandidate : (fun u => decide ((s.thread u).state = .ready ∧ some u ≠ s.idleThread)) =
      runnable s := by
    funext u
    rw [Bool.eq_iff_iff, decide_eq_true_eq, runnable_iff]
  have hready (i : ThreadPtr) (hi : s.idleThread = some i) :
      threadIsReady s s.idleThread = decide ((s.thread i).state = .ready) := by
    rw [hi]
    rfl
  have hnone (h : (searchOrder run s.currentThread).find? (runnable s) = none) :
      ∀ u ∈ searchOrder run s.currentThread, some u ≠ s.idleThread →
        (s.thread u).state ≠ .ready := by
    intro u hu hidle hstate
    exact List.find?_eq_none.mp h u hu (runnable_iff.mpr ⟨hstate, hidle⟩)
  unfold pick
  cases hfind : (searchOrder run s.currentThread).find? (runnable s) with
  | some u =>
    rw [Option.some_or]
    refine ⟨fun t ht => ?_, fun t ht _ => ?_, fun t ht hidle => ?_, fun h => absurd h (by simp)⟩
    · rw [hcandidate, hfind] at ht
      exact ht
    · rw [hcandidate, hfind]
      exact ht
    · obtain rfl := Option.some.inj ht
      exact absurd hidle (runnable_iff.mp (List.find?_some hfind)).2
  | none =>
    rw [Option.none_or]
    refine ⟨fun t ht => ?_, fun t ht hother => ?_, fun t ht hidle => ⟨?_, hnone hfind⟩,
      fun h => ⟨fun u hu hstate => ?_, fun i hi hstate => ?_⟩⟩
    · rw [hcandidate, hfind] at ht
      cases ht
    · split at ht
      · exact absurd ht.symm hother
      · cases ht
    · split at ht
      next hr =>
        rw [hready t hidle.symm] at hr
        exact of_decide_eq_true hr
      next => cases ht
    · by_cases hidle : some u = s.idleThread
      · rw [hready u hidle.symm, decide_eq_true hstate, if_pos rfl, ← hidle] at h
        cases h
      · exact hnone hfind u hu hidle hstate
    · rw [hready i hi, decide_eq_true hstate, if_pos rfl, hi] at h
      cases h

/-- For every well-formed run queue, whatever the states of its threads and whoever is current on
it: the search terminates, finds what it owes, and its loops examine each thread at most once, in
the cyclic order. Behind them it looks at the idle thread, if they found nothing. -/
theorem round_robin_selection {s : Scheduler} {run : List ThreadPtr}
    (hrun : Path s.links s.runQueueHead run none)
    (hc : ∀ c, s.currentThread = some c → c ∈ run) :
    ∃ loops final result, (∀ n, run.length ≤ n → selectThread s n = .ok ⟨loops, final, result⟩) ∧
      (run.length ≤ s.created → nextRunnableThread s = .ok result) ∧
      Selects s (searchOrder run s.currentThread) result ∧
      loops <+: searchOrder run s.currentThread ∧ loops.Nodup ∧
      (final = [] ∨ final = s.idleThread.toList ∧
        ∀ u ∈ run, some u ≠ s.idleThread → (s.thread u).state ≠ .ready) := by
  have hselects := pick_selects s run
  have hn := path_nodup hrun
  have hprefix := lookedAt_isPrefix (runnable s) (searchOrder run s.currentThread)
  refine ⟨_, _, _, fun n hle => selectThread_eq hrun hc hle, fun hle => ?_, hselects, hprefix,
    ?_, ?_⟩
  · rw [nextRunnableThread_eq_select, selectThread_eq hrun hc hle]
    rfl
  · rw [searchOrder_eq_turn] at hprefix ⊢
    exact hprefix.sublist.nodup ((turn_perm hn hc).nodup_iff.mpr hn)
  · split
    next => exact .inl rfl
    next hnone =>
      refine .inr ⟨rfl, fun u hu hidle hstate => ?_⟩
      rw [Bool.not_eq_true, Option.isSome_eq_false_iff, Option.isNone_iff_eq_none] at hnone
      have hmem := (mem_searchOrder hc hn).mpr hu
      exact List.find?_eq_none.mp hnone u hmem (runnable_iff.mpr ⟨hstate, hidle⟩)

/-- The idle thread 0 and four more, thread 2 current and thread 3 asleep. -/
def fiveThreads : Scheduler where
  thread t := ⟨t + 1, if t = 2 then .running else if t = 3 then .sleeping else .ready, 0, 0, 0, 0,
    if t < 4 then some (t + 1) else none, none, none⟩
  queue _ := ⟨none, none⟩
  runQueueHead := some 0
  runQueueTail := some 4
  currentThread := some 2
  idleThread := some 0
  nextThreadId := 6
  scheduleLocked := false
  needResched := false
  irqDepth := 0
  tickCount := 0
  allocated t := t < 5
  created := 5

/-- The search starts behind thread 2, passes over thread 3 and finds thread 4; with threads 1
and 4 blocked as well it goes round past the idle thread and ends with it. -/
theorem round_robin_selection_five : ∃ blocked : Scheduler,
    (selectThread fiveThreads 5 = .ok ⟨[3, 4], [], some 4⟩ ∧
      Selects fiveThreads [3, 4, 0, 1, 2] (some 4) ∧
      nextRunnableThread fiveThreads = .ok (some 4)) ∧
    (blocked.currentThread = some 2 ∧ selectThread blocked 5 = .ok ⟨[3, 4, 0, 1, 2], [0], some 0⟩ ∧
      Selects blocked [3, 4, 0, 1, 2] (some 0) ∧ nextRunnableThread blocked = .ok (some 0)) := by
  let blocked := (fiveThreads.modifyThread 1 fun x => { x with state := .waiting }).modifyThread 4
    fun x => { x with state := .waiting }
  have hrun : Path fiveThreads.links fiveThreads.runQueueHead [0, 1, 2, 3, 4] none := by decide
  have hrun' : Path blocked.links blocked.runQueueHead [0, 1, 2, 3, 4] none := by decide
  have hcur : ∀ c, some 2 = some c → c ∈ [0, 1, 2, 3, 4] := by
    intro c hc
    obtain rfl := Option.some.inj hc
    decide
  obtain ⟨loops, final, result, hselect, hnext, hs, -⟩ := round_robin_selection hrun hcur
  obtain ⟨loops', final', result', hselect', hnext', hs', -⟩ := round_robin_selection hrun' hcur
  have hfive : selectThread fiveThreads 5 = .ok ⟨[3, 4], [], some 4⟩ := by decide
  have hblocked : selectThread blocked 5 = .ok ⟨[3, 4, 0, 1, 2], [0], some 0⟩ := by decide
  obtain rfl : some 4 = result :=
    congrArg Selection.result (Except.ok.inj (hfive.symm.trans (hselect 5 (by decide))))
  obtain rfl : some 0 = result' :=
    congrArg Selection.result (Except.ok.inj (hblocked.symm.trans (hselect' 5 (by decide))))
  exact ⟨blocked, ⟨hfive, hs, hnext (by decide)⟩, rfl, hblocked, hs', hnext' (by decide)⟩

/-- The idle thread alone on the run queue, ready. -/
def idleAlone : Scheduler where
  thread _ := ⟨1, .ready, 0, 0, 0, 0, none, none, none⟩
  queue _ := ⟨none, none⟩
  runQueueHead := some 0
  runQueueTail := some 0
  currentThread := none
  idleThread := some 0
  nextThreadId := 2
  scheduleLocked := false
  needResched := false
  irqDepth := 0
  tickCount := 0
  allocated t := t == 0
  created := 1

/-- The state of the idle thread is read in the first loop and again behind the second one. -/
theorem idle_examined_twice : Path idleAlone.links idleAlone.runQueueHead [0] none ∧
    selectThread idleAlone 1 = .ok ⟨[0], [0], some 0⟩ :=
  ⟨by decide, rfl⟩

end Tianole.Sched
