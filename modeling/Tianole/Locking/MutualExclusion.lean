import Mathlib.Data.Set.Card
import Tianole.Locking.Invariant

/-! Mutual exclusion in every run, read off from the invariant. -/
namespace Tianole.Locking
open Runs

/-! ### What the invariant says -/

section
variable {L T : Type} [DecidableEq L] {schedulerLock : L} {σ : Cpu L T} {c : Context L T}
  {rest : List (Context L T)}

theorem Executing.owned_nodup (h : Executing schedulerLock σ c) : c.owned.Nodup := by
  have hnodup := h.nested.nodup
  rw [Context.sections, List.map_append] at hnodup
  have hheld := hnodup.sublist (List.sublist_append_right _ _)
  unfold Context.owned
  split
  next hp => simpa [hp, Point.opening] using hnodup
  next hp => simpa [hp, Point.opening] using hnodup
  next => exact hheld.erase _
  next => exact hheld

theorem Executing.owned_length (h : Executing schedulerLock σ c) :
    (c.owned.length : ℤ) = σ.spinlockDepth + c.point.lag := by
  have hdepth := h.depth
  have hpoint := h.point
  obtain ⟨point, held, yield, frame⟩ := c
  cases point with
  | restore l flags =>
    obtain ⟨s, outer, rfl, rfl, -⟩ := hpoint
    simp [Context.owned, Point.lag, hdepth, Point.offset]
  | _ => simp [Context.owned, Point.lag, hdepth, Point.offset]

/-- `spinlock_depth` counts the locked locks, but for the time between two stores of one call. -/
theorem Executing.count (h : Executing schedulerLock σ c) :
    ({l | σ.locked l = true}.ncard : ℤ) = σ.spinlockHeldCount + c.point.lag := by
  have hset : {l | σ.locked l = true} = (c.owned.toFinset : Set L) := by
    ext l
    simp [h.locked l]
  rw [hset, Set.ncard_coe_finset, List.toFinset_card_of_nodup h.owned_nodup]
  exact h.owned_length

theorem Executing.masked_of_locked (h : Executing schedulerLock σ c) {l : L}
    (hl : σ.locked l = true) : σ.interruptFlag = false := by
  by_contra hflag
  have hstanding := h.toStanding
  rw [Bool.eq_true_of_not_eq_false hflag] at hstanding
  have howned := (h.locked l).mp hl
  rw [hstanding.unmasked.2.1] at howned
  cases howned

theorem Below.owned_eq_nil {frame : Option Bool} (h : Below schedulerLock frame rest) :
    ∀ d ∈ rest, d.owned = [] := by
  induction rest generalizing frame with
  | nil => simp
  | cons d rest ih =>
    obtain ⟨-, hstanding, hrest⟩ := h
    exact List.forall_mem_cons.mpr ⟨hstanding.unmasked.2.1, ih hrest⟩

theorem Suspended.owned_eq_nil {stack : List (Context L T)} (h : Suspended schedulerLock stack) :
    ∀ d ∈ stack, d.owned = [] := by
  obtain ⟨c, rest, rfl, ⟨hp, -⟩, hheld, hbelow⟩ := h
  exact List.forall_mem_cons.mpr ⟨by simp [Context.owned, hp, hheld], hbelow.owned_eq_nil⟩

theorem Cpu.Initial.inv (h : σ.Initial) : ∃ c rest, Inv schedulerLock σ c rest := by
  have hfresh (t : T) : Suspended schedulerLock (σ.saved t) :=
    ⟨.fresh, [], h.saved t, ⟨rfl, rfl⟩, rfl, rfl⟩
  have hboot : Suspended schedulerLock σ.stack := ⟨.fresh, [], h.stack, ⟨rfl, rfl⟩, rfl, rfl⟩
  exact hboot.resume rfl h.locked h.spinlockDepth hfresh

/-- The panics of a broken lock discipline. -/
def Panic.OfLocks (p : Panic) : Prop :=
  p = .spinlockContention ∨ p = .invalidSpinlockRelease ∨ p = .spinlockDepthUnderflow

theorem Executing.lockStep_error {e : Stop} (h : Executing schedulerLock σ c) :
    σ.lockStep c rest ≠ .error e := by
  obtain ⟨hstanding, hlocked, hdepth⟩ := h
  obtain ⟨point, held, yield, frame⟩ := c
  have hpoint := hstanding.point
  cases point with
  | testFree s =>
    have hfree : σ.locked s.lock = false := by
      have hnotin : s.lock ∉ held.map (·.lock) := hstanding.nested.2.2.1
      simpa [Context.owned] using (hlocked s.lock).not.mpr hnotin
    simp [Cpu.lockStep, hfree]
  | testLocked l flags =>
    obtain ⟨s, outer, rfl, rfl, -⟩ := hpoint
    have hset : σ.locked s.lock = true := (hlocked s.lock).mpr (by simp [Context.owned])
    simp [Cpu.lockStep, hset]
  | testDepth l flags =>
    obtain ⟨s, outer, rfl, -⟩ := hpoint
    have hpos : ¬ σ.spinlockDepth ≤ 0 := by
      simp only [Point.offset, List.length_cons] at hdepth
      omega
    simp [Cpu.lockStep, hpos]
  | _ => simp [Cpu.lockStep]

variable [DecidableEq T] {act : Action L T}

theorem Inv.step_panic {p : Panic} (h : Inv schedulerLock σ c rest) (hd : c.Allows act)
    (hs : σ.step schedulerLock act = .error (.panic p)) : ¬ p.OfLocks := by
  unfold Cpu.step at hs
  rw [h.stack] at hs
  cases act with
  | lock lock flags =>
    simp only [Cpu.spinLockIrqsave] at hs
    split at hs
    next => cases hs
    next =>
      cases hs
      simp [Panic.OfLocks]
  | unlock lock flags =>
    obtain ⟨-, s, outer, -, rfl, -⟩ := hd
    cases hs
  | irqExit =>
    simp only at hs
    split at hs
    next =>
      cases hs
      simp [Panic.OfLocks]
    next => cases hs
  | yield =>
    have hassert := map_error hs
    unfold Cpu.schedAssertCanSwitch at hassert
    split at hassert
    next =>
      cases hassert
      simp [Panic.OfLocks]
    next =>
      split at hassert
      next =>
        cases hassert
        simp [Panic.OfLocks]
      next =>
        split at hassert
        next =>
          cases hassert
          simp [Panic.OfLocks]
        next => cases hassert
  | proceed target =>
    simp only [Cpu.proceed] at hs
    split at hs
    next y _ _ =>
      cases y with
      | reaping =>
        simp only [Cpu.yieldStep] at hs
        split at hs <;> cases hs
      | select => cases target <;> cases hs
      | _ => cases hs
    next => exact absurd hs h.executing.lockStep_error
  | iret =>
    simp only at hs
    split at hs <;> cases hs
  | _ => cases hs

/-- The last statement of a release: an inner one leaves interrupts masked, and the outermost one
gives the flag back. -/
theorem Inv.restores {l : L} {flags : Bool} (h : Inv schedulerLock σ c rest)
    (hp : c.point = .restore l flags) : ∃ s outer, c.held = s :: outer ∧ s.lock = l ∧
      ∀ target σ', σ.step schedulerLock (.proceed target) = .ok σ' →
        σ'.interruptFlag = if outer = [] then s.before else false := by
  have hpoint := h.executing.point
  rw [Context.PointOk, hp] at hpoint
  obtain ⟨s, outer, hheld, hlock, hflags⟩ := hpoint
  refine ⟨s, outer, hheld, hlock, fun target σ' hs => ?_⟩
  have hnested := h.executing.nested
  rw [Context.sections, hp, hheld] at hnested
  obtain ⟨hsaved, hinner, -⟩ := hnested
  have hflag : σ.interruptFlag = false := h.executing.masked (by simp [hheld])
  simp only [Cpu.step, h.stack, Cpu.proceed, hp, Cpu.lockStep] at hs
  obtain rfl := Except.ok.inj hs
  simp only [Cpu.goto, hflag, ← hflags, hsaved]
  by_cases houter : outer = []
  · rw [if_pos houter]
    cases s.before <;> rfl
  · simp [hinner houter]

/-- Mutual exclusion while `c` executes above the interrupted contexts `rest`. -/
structure Exclusion (schedulerLock : L) (σ : Cpu L T) (c : Context L T) (rest : List (Context L T)) :
    Prop where
  stack : σ.stack = c :: rest
  masked : ∀ l, σ.locked l = true → σ.interruptFlag = false
  count : ({l | σ.locked l = true}.ncard : ℤ) = σ.spinlockHeldCount + c.point.lag
  owner : ∀ l, σ.locked l = true ↔ l ∈ c.owned
  interrupted : ∀ d ∈ rest, d.owned = []
  suspended : ∀ t, ∀ d ∈ σ.saved t, d.owned = []
  panics : ∀ act p, c.Allows act → σ.step schedulerLock act = .error (.panic p) → ¬ p.OfLocks
  restores : ∀ l flags, c.point = .restore l flags → ∃ s outer, c.held = s :: outer ∧ s.lock = l ∧
    ∀ target σ', σ.step schedulerLock (.proceed target) = .ok σ' →
      σ'.interruptFlag = if outer = [] then s.before else false
  asserts : c.InCode → σ.schedAssertCanSwitch = .ok () → ∀ l, σ.locked l = false
  switches : ∀ prev next, c.yield = some (.switch prev next) → ∀ l, σ.locked l = false

theorem Inv.exclusion (h : Inv schedulerLock σ c rest) : Exclusion schedulerLock σ c rest where
  stack := h.stack
  masked _ hl := h.executing.masked_of_locked hl
  count := h.executing.count
  owner := h.executing.locked
  interrupted := h.below.owned_eq_nil
  suspended t := (h.saved t).owned_eq_nil
  panics _ _ hd hs := h.step_panic hd hs
  restores _ _ hp := h.restores hp
  asserts hcode hassert :=
    (h.executing.free hcode.1
      (h.executing.held_eq_nil hcode.1 (schedAssertCanSwitch_depth hassert))).1
  switches prev next hy := by
    have hyield := h.executing.yield
    rw [Context.YieldOk, hy] at hyield
    exact (h.executing.free hyield.1 hyield.2).1

/-! ### Runs -/

variable {ok : Cpu L T → Action L T → Prop}

theorem Reachable.lockCall {l : L} (h : Reachable schedulerLock ok σ) (hstack : σ.stack = c :: rest)
    (hcode : c.InCode) (hnew : ∀ s ∈ c.held, l ≠ s.lock) (hfree : σ.locked l = false)
    (hok : ok σ (.lock (some l) true)) (hproceed : ∀ τ, ok τ (.proceed none)) :
    Reachable schedulerLock ok (σ.entered c rest l) := by
  have hcall : exec (Cpu.step schedulerLock) σ (Cpu.lockCall l) = _ :=
    Cpu.exec_lockCall hstack hcode.1
  rw [hfree, if_neg (by simp)] at hcall
  obtain ⟨τ, hs, hrest⟩ := bind_ok hcall
  have hd : σ.Disciplined (.lock (some l) true) := by
    intro d below hd
    obtain ⟨rfl, -⟩ := List.cons.inj (hstack.symm.trans hd)
    exact ⟨hcode, fun s hs heq => hnew s hs (Option.some.inj heq)⟩
  refine (Reach.next h ⟨hd, hok⟩ hs).exec _ (fun a ha τ => ?_) hrest
  obtain rfl := List.eq_of_mem_replicate ha
  exact ⟨fun _ _ _ => trivial, hproceed τ⟩

end

/-- In every run of threads and interrupt handlers with well-nested critical sections, fewer than
`2 ^ 31` of them open at a time, the locked locks belong to the context that executes, interrupts
are masked while there are any, `spinlock_depth` counts them, no spinlock panic is reached, and the
last release restores the interrupt flag. `sched_assert_can_switch` passes, and the stack is
switched, only while no lock is held. -/
theorem spinlocks_exclude {L T : Type} [DecidableEq L] [DecidableEq T] {schedulerLock : L}
    {σ : Cpu L T} (h : Reachable schedulerLock Cpu.FewLocks σ) :
    ∃ c rest, Exclusion schedulerLock σ c rest := by
  have hinv : ∃ c rest, Inv schedulerLock σ c rest := by
    refine Reach.invariant (I := fun σ => ∃ c rest, Inv schedulerLock σ c rest) h ?_ ?_
    · intro σ hσ
      exact hσ.inv
    · rintro σ act σ' ⟨c, rest, hσ⟩ ⟨hd, hfew⟩ hs
      exact hσ.step (hd c rest hσ.stack) hfew hs
  obtain ⟨c, rest, hσ⟩ := hinv
  exact ⟨c, rest, hσ.exclusion⟩

/-- The CPU at boot, with locks and threads named by numbers. -/
def Cpu.boot : Cpu ℕ ℕ := ⟨true, fun _ => false, 0, false, 0, [.fresh], fun _ => [.fresh]⟩

theorem boot_reachable {ok : Cpu ℕ ℕ → Action ℕ ℕ → Prop} : Reachable 0 ok .boot :=
  .start ⟨fun _ => rfl, rfl, rfl, rfl, rfl, fun _ => rfl⟩

/-- An interrupt arrives in the boot context, and its handler takes lock 7 and, inside it, lock 8. -/
theorem spinlocks_exclude_nested : ∃ (σ : Cpu ℕ ℕ) (c d : Context ℕ ℕ),
    Reachable 0 Cpu.FewLocks σ ∧ Exclusion 0 σ c [d] ∧ c.frame = some true ∧ c.owned = [8, 7] ∧
    d.owned = [] ∧ σ.locked 7 = true ∧ σ.locked 8 = true ∧ σ.locked 9 = false ∧
    σ.interruptFlag = false ∧ σ.spinlockHeldCount = 2 := by
  let handler : Context ℕ ℕ := ⟨.code, [], none, some true⟩
  have hirq : Reachable 0 Cpu.FewLocks Cpu.boot.interrupt :=
    .next (a := .interrupt) boot_reachable ⟨fun _ _ _ => trivial, trivial⟩ rfl
  have hseven : Reachable 0 Cpu.FewLocks (Cpu.boot.interrupt.entered handler [.fresh] 7) := by
    refine hirq.lockCall rfl ⟨rfl, rfl⟩ (by simp [handler]) rfl ?_ fun _ => trivial
    intro c rest hc
    obtain ⟨rfl, -⟩ := List.cons.inj hc
    decide
  let inner : Context ℕ ℕ := { handler with held := [⟨7, false, false⟩] }
  have height : Reachable 0 Cpu.FewLocks
      ((Cpu.boot.interrupt.entered handler [.fresh] 7).entered inner [.fresh] 8) := by
    refine hseven.lockCall rfl ⟨rfl, rfl⟩ (by simp [inner]) rfl ?_ fun _ => trivial
    intro c rest hc
    obtain ⟨rfl, -⟩ := List.cons.inj hc
    decide
  obtain ⟨c, rest, hexcl⟩ := spinlocks_exclude height
  obtain ⟨rfl, rfl⟩ := List.cons.inj hexcl.stack
  have hmem : 7 ∈ Context.owned { inner with held := ⟨8, false, false⟩ :: inner.held } := by decide
  have h₇ := (hexcl.owner 7).mpr hmem
  refine ⟨_, _, .fresh, height, hexcl, rfl, rfl, hexcl.interrupted .fresh (by simp), h₇,
    (hexcl.owner 8).mpr (by decide), ?_, hexcl.masked 7 h₇, rfl⟩
  rw [← Bool.not_eq_true, hexcl.owner 9]
  decide

/-! ### The counter is an `int` -/

theorem Cpu.entered_locked {L T : Type} [DecidableEq L] {σ : Cpu L T} {c : Context L T}
    {rest : List (Context L T)} {l m : L} :
    (σ.entered c rest l).locked m = true ↔ m = l ∨ σ.locked m = true := by
  simp only [entered, Function.update_apply]
  split <;> simp_all

/-- `n` locks, one inside the other. -/
theorem nested_reachable (n : ℕ) (hn : n < 2 ^ 31) :
    ∃ (σ : Cpu ℕ ℕ) (c : Context ℕ ℕ), Reachable 0 (fun _ _ => True) σ ∧ σ.stack = [c] ∧
      c.InCode ∧ (∀ l, σ.locked l = true ↔ l < n) ∧ (∀ s ∈ c.held, s.lock < n) ∧
      σ.spinlockDepth = n := by
  induction n with
  | zero =>
    exact ⟨.boot, .fresh, boot_reachable, rfl, ⟨rfl, rfl⟩, by simp [Cpu.boot],
      by simp [Context.fresh], rfl⟩
  | succ n ih =>
    obtain ⟨σ, c, hr, hstack, hcode, hlocked, hheld, hdepth⟩ := ih (by omega)
    have hfree : σ.locked n = false := by simpa using (hlocked n).not
    refine ⟨σ.entered c [] n, _, hr.lockCall hstack hcode (fun s hs => (hheld s hs).ne') hfree
      trivial fun _ => trivial, rfl, hcode, fun l => ?_, ?_, ?_⟩
    · rw [Cpu.entered_locked, hlocked]
      omega
    · refine List.forall_mem_cons.mpr ⟨Nat.lt_succ_self n, fun s hs => ?_⟩
      exact (hheld s hs).trans (Nat.lt_succ_self n)
    · simp only [Cpu.entered, hdepth]
      rw [Cpu.int32_eq (by omega) (by omega)]
      omega

/-- With `2 ^ 31` locks held `spinlock_depth` is negative, and the next release panics. -/
theorem spinlock_depth_overflows : ∃ (σ τ : Cpu ℕ ℕ) (act : Action ℕ ℕ),
    Reachable 0 (fun _ _ => True) σ ∧ {l | σ.locked l = true}.ncard = 2 ^ 31 ∧
    σ.spinlockHeldCount = -2 ^ 31 ∧ Reachable 0 (fun _ _ => True) τ ∧ τ.Disciplined act ∧
    τ.step 0 act = .error (.panic .spinlockDepthUnderflow) := by
  obtain ⟨σ, c, hr, hstack, hcode, hlocked, hheld, hdepth⟩ :=
    nested_reachable (2 ^ 31 - 1) (by omega)
  generalize hn : 2 ^ 31 - 1 = n at hlocked hheld hdepth
  have hfree : σ.locked n = false := by simpa using (hlocked n).not
  have hr' := hr.lockCall hstack hcode (fun s hs => (hheld s hs).ne') hfree trivial
    fun _ => trivial
  refine ⟨σ.entered c [] n, ?_⟩
  have hset : {l | (σ.entered c [] n).locked l = true} = (Finset.range (n + 1) : Set ℕ) := by
    ext l
    simp only [Set.mem_ofPred_eq, Cpu.entered_locked, hlocked, Finset.coe_range, Set.mem_Iio]
    omega
  have hcount : (σ.entered c [] n).spinlockDepth = -2 ^ 31 := by
    simp only [Cpu.entered, hdepth, ← hn, int32, Int.bmod_def]
    omega
  -- The release of the innermost lock finds it locked and the counter negative.
  have hcall : exec (Cpu.step 0) (σ.entered c [] n) (Cpu.unlockCall n σ.interruptFlag) =
      .error (.panic .spinlockDepthUnderflow) := by
    have hstack' : (σ.entered c [] n).stack =
        [{ c with held := ⟨n, σ.interruptFlag, σ.interruptFlag⟩ :: c.held }] := rfl
    rw [Cpu.exec_unlockCall hstack' hcode.1, if_neg, if_pos]
    · rw [hcount]
      omega
    · rw [Bool.not_eq_false, Cpu.entered_locked]
      exact .inl rfl
  obtain hcall | ⟨τ₀, hs, hcall⟩ := bind_error hcall
  · cases hcall
  · have hd : (σ.entered c [] n).Disciplined (.unlock (some n) σ.interruptFlag) := by
      intro d below hd
      obtain ⟨rfl, -⟩ := List.cons.inj hd
      exact ⟨hcode, _, c.held, rfl, rfl, rfl⟩
    obtain ⟨τ, act, hτ, ⟨hact, -⟩, hpanic⟩ := (Reach.next hr' ⟨hd, trivial⟩ hs).exec_error _
      (fun a ha τ => ⟨by rw [List.eq_of_mem_replicate ha]; exact fun _ _ _ => trivial, trivial⟩) hcall
    refine ⟨τ, act, hr', ?_, hcount, hτ, hact, hpanic⟩
    rw [hset, Set.ncard_coe_finset, Finset.card_range]
    omega

end Tianole.Locking
