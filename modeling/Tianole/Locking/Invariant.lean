import Tianole.Locking.Spinlock

/-! The invariant of the spinlocks. The locks that are held all belong to the context that executes,
in the order of its critical sections, and interrupts stay masked until the last of them is
released; so whatever an interrupt or a context switch leaves behind holds nothing. -/
namespace Tianole.Locking
open Runs

section
variable {L T : Type}

/-- The critical section that `spin_lock_irqsave` is about to open. -/
def Point.opening : Point L → List (CriticalSection L)
  | .save l before => [⟨l, before, before⟩]
  | .mask s | .testFree s | .take s | .count s | .store s => [s]
  | _ => []

def Point.Releasing : Point L → Prop
  | .testLocked _ _ | .testDepth _ _ | .uncount _ _ | .clear _ _ | .restore _ _ => True
  | _ => False

/-- The lock words that are set and not yet counted in `spinlock_depth`, or no longer. -/
def Point.lag : Point L → ℕ
  | .count _ | .clear _ _ => 1
  | _ => 0

/-- The difference between `spinlock_depth` and the number of open critical sections. -/
def Point.offset : Point L → ℤ
  | .store _ => 1
  | .clear _ _ | .restore _ _ => -1
  | _ => 0

namespace Context

/-- The locks whose words this context has set and not cleared. -/
def owned [DecidableEq L] (c : Context L T) : List L :=
  match c.point with
  | .count s | .store s => s.lock :: c.held.map (·.lock)
  | .restore l _ => (c.held.map (·.lock)).erase l
  | _ => c.held.map (·.lock)

def sections (c : Context L T) : List (CriticalSection L) := c.point.opening ++ c.held

end Context

/-- Sections of different locks that restore the flag as it was; the inner ones leave it clear. -/
def Nested : List (CriticalSection L) → Prop
  | [] => True
  | s :: outer => s.flags = s.before ∧ (outer ≠ [] → s.before = false) ∧
      s.lock ∉ outer.map (·.lock) ∧ Nested outer

theorem Nested.nodup {held : List (CriticalSection L)} (h : Nested held) :
    (held.map (·.lock)).Nodup := by
  induction held with
  | nil => exact List.nodup_nil
  | cons s outer ih => exact List.nodup_cons.mpr ⟨h.2.2.1, ih h.2.2.2⟩

namespace Context

/-- What the points of the two lock functions say about the interrupt flag and the sections. -/
def PointOk (flag : Bool) (c : Context L T) : Prop :=
  match c.point with
  | .code => True
  | .save _ before => before = flag
  | .mask s => s.before = flag
  | .testFree _ | .take _ | .count _ | .store _ => flag = false
  | .testLocked l flags | .testDepth l flags | .uncount l flags | .clear l flags
  | .restore l flags => ∃ s outer, c.held = s :: outer ∧ s.lock = l ∧ s.flags = flags

/-- `sched_yield` holds nothing but the scheduler lock, and that only while it reaps. -/
def YieldOk (schedulerLock : L) (c : Context L T) : Prop :=
  match c.yield with
  | none => True
  | some .reap | some (.locked _ _) | some (.switch _ _) => c.point = .code ∧ c.held = []
  | some .reaping => ¬ c.point.Releasing ∧ ∃ s, c.sections = [s] ∧ s.lock = schedulerLock
  | some .select => c.point = .code ∧ c.held = [] ∨ c.point.Releasing ∧ ∃ s, c.held = [s]

/-- What holds of a context in which the interrupt flag is `flag`. -/
structure Standing (schedulerLock : L) (flag : Bool) (c : Context L T) : Prop where
  nested : Nested c.sections
  room : c.sections.length < 2 ^ 31
  masked : c.held ≠ [] → flag = false
  point : c.PointOk flag
  yield : c.YieldOk schedulerLock

end Context

/-- The interrupted contexts below a context with the interrupt frame `frame`. -/
def Below (schedulerLock : L) (frame : Option Bool) : List (Context L T) → Prop
  | [] => frame = none
  | d :: rest => frame = some true ∧ d.Standing schedulerLock true ∧
      Below schedulerLock d.frame rest

/-- A stack that a context switch has left, or that no thread has used yet. -/
def Suspended (schedulerLock : L) (stack : List (Context L T)) : Prop :=
  ∃ c rest, stack = c :: rest ∧ c.InCode ∧ c.held = [] ∧ Below schedulerLock c.frame rest

/-- What holds of the context that executes. -/
structure Executing [DecidableEq L] (schedulerLock : L) (σ : Cpu L T) (c : Context L T) : Prop
    extends c.Standing schedulerLock σ.interruptFlag where
  locked : ∀ l, σ.locked l = true ↔ l ∈ c.owned
  depth : σ.spinlockDepth = c.held.length + c.point.offset

structure Inv [DecidableEq L] (schedulerLock : L) (σ : Cpu L T) (c : Context L T)
    (rest : List (Context L T)) : Prop where
  stack : σ.stack = c :: rest
  executing : Executing schedulerLock σ c
  below : Below schedulerLock c.frame rest
  saved : ∀ t, Suspended schedulerLock (σ.saved t)

end

section
variable {L T : Type} {schedulerLock : L} {flag flag' : Bool} {c c' : Context L T} {p : Point L}

theorem Point.Releasing.opening (h : p.Releasing) : p.opening = [] := by
  cases p <;> first | rfl | exact h.elim

namespace Context

/-- Inside `spin_lock_irqsave` the sections stay as they are. -/
theorem YieldOk.opening (h : c.YieldOk schedulerLock) (hc : c.point.opening ≠ [])
    (hy : c'.yield = c.yield) (hs : c'.sections = c.sections) (hr : ¬ c'.point.Releasing) :
    c'.YieldOk schedulerLock := by
  have hcode : c.point ≠ .code := fun hp => hc (by rw [hp]; rfl)
  unfold YieldOk at h ⊢
  rw [hy]
  split at h
  next => trivial
  next => exact absurd h.1 hcode
  next => exact absurd h.1 hcode
  next => exact absurd h.1 hcode
  next => exact ⟨hr, hs ▸ h.2⟩
  next =>
    rcases h with h | h
    · exact absurd h.1 hcode
    · exact absurd h.1.opening hc

theorem YieldOk.releasing (h : c.YieldOk schedulerLock) (hr : c.point.Releasing)
    (hy : c'.yield = c.yield) (hheld : c'.held = c.held) (hr' : c'.point.Releasing) :
    c'.YieldOk schedulerLock := by
  have hcode : c.point ≠ .code := fun hp => by simp [hp, Point.Releasing] at hr
  unfold YieldOk at h ⊢
  rw [hy]
  split at h
  next => trivial
  next => exact absurd h.1 hcode
  next => exact absurd h.1 hcode
  next => exact absurd h.1 hcode
  next => exact absurd hr h.1
  next =>
    rcases h with h | h
    · exact absurd h.1 hcode
    · exact .inr ⟨hr', hheld ▸ h.2⟩

theorem YieldOk.released {s : CriticalSection L} {outer : List (CriticalSection L)}
    (h : c.YieldOk schedulerLock) (hr : c.point.Releasing) (hheld : c.held = s :: outer)
    (hy : c'.yield = c.yield) (hp : c'.point = .code) (hheld' : c'.held = outer) :
    c'.YieldOk schedulerLock := by
  unfold YieldOk at h ⊢
  rw [hy]
  split at h
  next => trivial
  next => simp [hheld] at h
  next => simp [hheld] at h
  next => simp [hheld] at h
  next => exact absurd hr h.1
  next => simp_all

theorem Standing.opening (h : c.Standing schedulerLock flag) (hc : c.point.opening ≠ [])
    (hy : c'.yield = c.yield) (hs : c'.sections = c.sections) (hr : ¬ c'.point.Releasing)
    (hmasked : c'.held ≠ [] → flag' = false) (hpoint : c'.PointOk flag') :
    c'.Standing schedulerLock flag' :=
  ⟨hs ▸ h.nested, hs ▸ h.room, hmasked, hpoint, h.yield.opening hc hy hs hr⟩

theorem Standing.releasing (h : c.Standing schedulerLock flag) (hr : c.point.Releasing)
    (hr' : p.Releasing) (hpoint : ({ c with point := p }).PointOk flag) :
    ({ c with point := p }).Standing schedulerLock flag := by
  have hs : ({ c with point := p }).sections = c.sections := by
    simp only [sections, hr.opening, hr'.opening]
  exact ⟨hs ▸ h.nested, hs ▸ h.room, h.masked, hpoint, h.yield.releasing hr rfl rfl hr'⟩

/-- A context outside its critical sections stands with any flag. -/
theorem Standing.outside (hp : c.point = .code) (hheld : c.held = [])
    (hy : c.YieldOk schedulerLock) : c.Standing schedulerLock flag := by
  have hs : c.sections = [] := by simp [sections, hp, hheld, Point.opening]
  have hpoint : c.PointOk flag := by
    rw [PointOk, hp]
    trivial
  exact ⟨by rw [hs]; trivial, by simp [hs], fun h => absurd hheld h, hpoint, hy⟩

/-- With interrupts enabled a context holds nothing. -/
theorem Standing.unmasked [DecidableEq L] (h : c.Standing schedulerLock true) :
    c.held = [] ∧ c.owned = [] ∧ c.point.offset = 0 := by
  have hheld : c.held = [] := by
    by_contra hne
    exact absurd (h.masked hne) (by simp)
  have hpoint := h.point
  obtain ⟨point, held, yield, frame⟩ := c
  obtain rfl : held = [] := hheld
  cases point <;> simp_all [PointOk, owned, Point.offset]

end Context
end

theorem schedAssertCanSwitch_depth {L T : Type} {σ : Cpu L T}
    (h : σ.schedAssertCanSwitch = .ok ()) : σ.spinlockDepth = 0 := by
  unfold Cpu.schedAssertCanSwitch at h
  split at h
  next => cases h
  next =>
    split at h
    next => cases h
    next hdepth => exact not_not.mp hdepth

section
variable {L T : Type} [DecidableEq L] {schedulerLock : L} {σ σ' : Cpu L T} {c : Context L T}
  {rest : List (Context L T)}

/-- While nothing is held every lock is free. -/
theorem Executing.free (h : Executing schedulerLock σ c) (hp : c.point = .code)
    (hheld : c.held = []) : (∀ l, σ.locked l = false) ∧ σ.spinlockDepth = 0 := by
  refine ⟨fun l => ?_, ?_⟩
  · have hl := (h.locked l).not
    simpa [Context.owned, hp, hheld] using hl
  · simpa [hp, hheld, Point.offset] using h.depth

theorem Executing.outside (hfree : ∀ l, σ.locked l = false) (hdepth : σ.spinlockDepth = 0)
    (hstanding : c.Standing schedulerLock σ.interruptFlag) (hheld : c.held = [])
    (howned : c.owned = []) (hoffset : c.point.offset = 0) : Executing schedulerLock σ c :=
  ⟨hstanding, fun l => by simp [hfree l, howned], by simp [hdepth, hheld, hoffset]⟩

/-- `c` becomes another context on its stack that meets the invariant. -/
def Advances (schedulerLock : L) (σ : Cpu L T) (c : Context L T) (rest : List (Context L T))
    (σ' : Cpu L T) : Prop :=
  ∃ τ c', σ' = τ.goto rest c' ∧ τ.saved = σ.saved ∧ c'.frame = c.frame ∧
    Executing schedulerLock τ c'

theorem Executing.acquireStep (h : Executing schedulerLock σ c) (hc : c.point.opening ≠ [])
    (hs : σ.lockStep c rest = .ok σ') : Advances schedulerLock σ c rest σ' := by
  obtain ⟨hstanding, hlocked, hdepth⟩ := h
  obtain ⟨point, held, yield, frame⟩ := c
  have hpoint := hstanding.point
  cases point with
  | save l before =>
    obtain rfl : before = σ.interruptFlag := hpoint
    refine ⟨_, _, (Except.ok.inj hs).symm, rfl, rfl, ?_, hlocked, hdepth⟩
    exact hstanding.opening (by simp [Point.opening]) rfl rfl (by simp [Point.Releasing])
      hstanding.masked rfl
  | mask s =>
    refine ⟨_, _, (Except.ok.inj hs).symm, rfl, rfl, ?_, hlocked, hdepth⟩
    exact hstanding.opening (by simp [Point.opening]) rfl rfl (by simp [Point.Releasing])
      (fun _ => rfl) rfl
  | testFree s =>
    simp only [Cpu.lockStep] at hs
    split at hs
    next => cases hs
    next =>
      refine ⟨_, _, (Except.ok.inj hs).symm, rfl, rfl, ?_, hlocked, hdepth⟩
      exact hstanding.opening (by simp [Point.opening]) rfl rfl (by simp [Point.Releasing])
        hstanding.masked hpoint
  | take s =>
    refine ⟨_, _, (Except.ok.inj hs).symm, rfl, rfl, ?_, fun l => ?_, hdepth⟩
    · exact hstanding.opening (by simp [Point.opening]) rfl rfl (by simp [Point.Releasing])
        hstanding.masked hpoint
    · have hl := hlocked l
      simp only [Context.owned, List.mem_cons, Function.update_apply] at hl ⊢
      split <;> simp_all
  | count s =>
    refine ⟨_, _, (Except.ok.inj hs).symm, rfl, rfl, ?_, hlocked, ?_⟩
    · exact hstanding.opening (by simp [Point.opening]) rfl rfl (by simp [Point.Releasing])
        hstanding.masked hpoint
    · have hroom := hstanding.room
      simp only [Context.sections, Point.opening, List.length_append, List.length_singleton]
        at hroom
      simp only [Point.offset, add_zero] at hdepth ⊢
      rw [hdepth, Cpu.int32_eq (by omega) (by omega)]
  | store s =>
    refine ⟨_, _, (Except.ok.inj hs).symm, rfl, rfl, ?_, hlocked, ?_⟩
    · exact hstanding.opening (by simp [Point.opening]) rfl rfl (by simp [Point.Releasing])
        (fun _ => hpoint) trivial
    · simp only [Point.offset, List.length_cons] at hdepth ⊢
      omega
  | _ => exact absurd rfl hc

theorem Executing.releaseStep (h : Executing schedulerLock σ c) (hc : c.point.Releasing)
    (hs : σ.lockStep c rest = .ok σ') : Advances schedulerLock σ c rest σ' := by
  obtain ⟨hstanding, hlocked, hdepth⟩ := h
  obtain ⟨point, held, yield, frame⟩ := c
  have hpoint := hstanding.point
  cases point with
  | testLocked l flags =>
    simp only [Cpu.lockStep] at hs
    split at hs
    next => cases hs
    next =>
      refine ⟨_, _, (Except.ok.inj hs).symm, rfl, rfl, ?_, hlocked, hdepth⟩
      exact hstanding.releasing trivial trivial hpoint
  | testDepth l flags =>
    simp only [Cpu.lockStep] at hs
    split at hs
    next => cases hs
    next =>
      refine ⟨_, _, (Except.ok.inj hs).symm, rfl, rfl, ?_, hlocked, hdepth⟩
      exact hstanding.releasing trivial trivial hpoint
  | uncount l flags =>
    refine ⟨_, _, (Except.ok.inj hs).symm, rfl, rfl, ?_, hlocked, ?_⟩
    · exact hstanding.releasing trivial trivial hpoint
    · have hroom := hstanding.room
      simp only [Context.sections, Point.opening, List.nil_append] at hroom
      simp only [Point.offset] at hdepth ⊢
      rw [hdepth, Cpu.int32_eq (by omega) (by omega)]
      omega
  | clear l flags =>
    refine ⟨_, _, (Except.ok.inj hs).symm, rfl, rfl, ?_, fun x => ?_, hdepth⟩
    · exact hstanding.releasing trivial trivial hpoint
    · obtain ⟨s, outer, rfl, rfl, -⟩ := hpoint
      have hfresh : s.lock ∉ outer.map (·.lock) := hstanding.nested.2.2.1
      have hx := hlocked x
      simp only [Context.owned, List.map_cons, List.erase_cons_head, List.mem_cons,
        Function.update_apply] at hx ⊢
      split <;> simp_all
  | restore l flags =>
    obtain ⟨s, outer, rfl, rfl, rfl⟩ := hpoint
    have hnested : Nested (s :: outer) := hstanding.nested
    have hheld : (s :: outer).eraseP (fun x => decide (x.lock = s.lock)) = outer := by simp
    refine ⟨_, _, (Except.ok.inj hs).symm, rfl, rfl, ⟨?_, ?_, ?_, trivial, ?_⟩, fun x => ?_, ?_⟩
    · simpa [Context.sections, Point.opening] using hnested.2.2.2
    · have hroom := hstanding.room
      simp only [Context.sections, Point.opening, List.nil_append, List.length_cons, hheld]
        at hroom ⊢
      omega
    · simp only [hheld]
      intro houter
      have hflag := hstanding.masked (by simp)
      simp [hnested.1, hnested.2.1 houter, hflag]
    · exact hstanding.yield.released trivial rfl rfl rfl hheld
    · simpa [Context.owned] using hlocked x
    · simp only [Point.offset, List.length_cons, hheld] at hdepth ⊢
      omega
  | _ => exact hc.elim

theorem Executing.lockStep (h : Executing schedulerLock σ c) (hc : c.point ≠ .code)
    (hs : σ.lockStep c rest = .ok σ') : Advances schedulerLock σ c rest σ' := by
  by_cases hr : c.point.Releasing
  · exact h.releaseStep hr hs
  · refine h.acquireStep (fun ho => ?_) hs
    cases hp : c.point <;> simp_all [Point.opening, Point.Releasing]

/-- Outside the critical sections the flag may change, and `sched_yield` may go on. -/
theorem Executing.moves {τ : Cpu L T} {y : Option (YieldPoint T)}
    (h : Executing schedulerLock σ c) (hp : c.point = .code) (hheld : c.held = [])
    (hlocked : τ.locked = σ.locked) (hdepth : τ.spinlockDepth = σ.spinlockDepth)
    (hy : ({ c with yield := y }).YieldOk schedulerLock) :
    Executing schedulerLock τ { c with yield := y } := by
  obtain ⟨hfree, hzero⟩ := h.free hp hheld
  refine .outside (by simp [hlocked, hfree]) (hdepth.trans hzero) (.outside hp hheld hy) hheld ?_ ?_
  · simp [Context.owned, hp, hheld]
  · simp [hp, Point.offset]

/-! ### Calls -/

theorem Executing.spinLockIrqsave {y : Option (YieldPoint T)} {lock : Option L} {flags : Bool}
    (h : Executing schedulerLock σ c) (hp : c.point = .code)
    (hnew : ∀ s ∈ c.held, lock ≠ some s.lock) (hroom : c.held.length + 1 < 2 ^ 31)
    (hy : ∀ l before, lock = some l →
      (Context.mk (.save l before) c.held y c.frame).YieldOk schedulerLock)
    (hs : σ.spinLockIrqsave { c with yield := y } rest lock flags = .ok σ') :
    Advances schedulerLock σ c rest σ' := by
  obtain ⟨hstanding, hlocked, hdepth⟩ := h
  obtain ⟨point, held, yield, frame⟩ := c
  obtain rfl : point = _ := hp
  unfold Cpu.spinLockIrqsave at hs
  split at hs
  next l =>
    refine ⟨_, _, (Except.ok.inj hs).symm, rfl, rfl, ⟨⟨rfl, hstanding.masked, ?_, ?_⟩, ?_,
      hstanding.masked, rfl, hy l _ rfl⟩, hlocked, hdepth⟩
    · simpa using fun s hs heq => hnew s hs (congrArg some heq.symm)
    · exact hstanding.nested
    · simpa [Context.sections, Point.opening] using hroom
  next => cases hs

theorem Executing.spinUnlockIrqrestore {y : Option (YieldPoint T)} {s : CriticalSection L}
    {outer : List (CriticalSection L)} (h : Executing schedulerLock σ c) (hp : c.point = .code)
    (hheld : c.held = s :: outer)
    (hy : (Context.mk (.testLocked s.lock s.flags) c.held y c.frame).YieldOk schedulerLock)
    (hs : σ.spinUnlockIrqrestore { c with yield := y } rest (some s.lock) s.flags = .ok σ') :
    Advances schedulerLock σ c rest σ' := by
  obtain ⟨hstanding, hlocked, hdepth⟩ := h
  obtain ⟨point, held, yield, frame⟩ := c
  obtain rfl : point = _ := hp
  refine ⟨_, _, (Except.ok.inj hs).symm, rfl, rfl, ⟨hstanding.nested, hstanding.room,
    hstanding.masked, ⟨s, outer, hheld, rfl, rfl⟩, hy⟩, hlocked, hdepth⟩

/-- `sched_yield` up to the switch. -/
theorem Executing.yieldStep [DecidableEq T] {target : Option (T × T)} {y : YieldPoint T}
    (h : Executing schedulerLock σ c) (hp : c.point = .code) (hy : c.yield = some y)
    (hswitch : ∀ prev next, y ≠ .switch prev next)
    (hs : σ.yieldStep schedulerLock c rest target y = .ok σ') :
    Advances schedulerLock σ c rest σ' := by
  have hyield := h.yield
  rw [Context.YieldOk, hy] at hyield
  cases y with
  | reap =>
    obtain ⟨-, hheld⟩ := hyield
    have hcall : σ.spinLockIrqsave { c with yield := some .reaping } rest (some schedulerLock) true =
        .ok σ' := hs
    refine h.spinLockIrqsave hp (by simp [hheld]) (by simp [hheld]) (fun l before hl => ?_) hcall
    obtain rfl := Option.some.inj hl
    exact ⟨id, _, by rw [Context.sections, hheld]; rfl, rfl⟩
  | reaping =>
    obtain ⟨-, s, hsections, rfl⟩ := hyield
    have hheld : c.held = [s] := by simpa [Context.sections, hp, Point.opening] using hsections
    have hcall : σ.spinUnlockIrqrestore { c with yield := some .select } rest (some s.lock) s.flags =
        .ok σ' := by
      rw [← hs, Cpu.yieldStep]
      simp only [hheld]
    exact h.spinUnlockIrqrestore (y := some .select) hp hheld (.inr ⟨trivial, s, hheld⟩) hcall
  | select =>
    obtain ⟨-, hheld⟩ | ⟨hr, -⟩ := hyield
    · cases target with
      | none => exact ⟨σ, _, (Except.ok.inj hs).symm, rfl, rfl, h.moves hp hheld rfl rfl trivial⟩
      | some pair =>
        exact ⟨_, _, (Except.ok.inj hs).symm, rfl, rfl, h.moves hp hheld rfl rfl ⟨hp, hheld⟩⟩
    · simp [hp, Point.Releasing] at hr
  | locked prev next =>
    obtain ⟨-, hheld⟩ := hyield
    exact ⟨_, _, (Except.ok.inj hs).symm, rfl, rfl, h.moves hp hheld rfl rfl ⟨hp, hheld⟩⟩
  | switch prev next => exact absurd rfl (hswitch prev next)

/-! ### Steps -/

theorem Inv.advance (h : Inv schedulerLock σ c rest) (ha : Advances schedulerLock σ c rest σ') :
    ∃ c' rest', Inv schedulerLock σ' c' rest' := by
  obtain ⟨τ, c', rfl, hsaved, hframe, hstanding, hlocked, hdepth⟩ := ha
  refine ⟨c', rest, rfl, ⟨hstanding, hlocked, hdepth⟩, hframe ▸ h.below, fun t => ?_⟩
  have hstack := h.saved t
  rw [← hsaved] at hstack
  exact hstack

/-- What the invariant does not read may change. -/
theorem Inv.congr (h : Inv schedulerLock σ c rest) (hstack : σ'.stack = c :: rest)
    (hflag : σ'.interruptFlag = σ.interruptFlag) (hlocked : σ'.locked = σ.locked)
    (hdepth : σ'.spinlockDepth = σ.spinlockDepth)
    (hsaved : ∀ t, Suspended schedulerLock (σ'.saved t)) : Inv schedulerLock σ' c rest :=
  ⟨hstack, ⟨hflag ▸ h.executing.toStanding, hlocked ▸ h.executing.locked,
    hdepth.trans h.executing.depth⟩, h.below, hsaved⟩

/-- A stack that a context outside its critical sections leaves. -/
theorem Inv.suspend (h : Inv schedulerLock σ c rest) (hp : c.point = .code) (hheld : c.held = []) :
    Suspended schedulerLock ({ c with yield := none } :: rest) :=
  ⟨_, rest, rfl, ⟨hp, rfl⟩, hheld, h.below⟩

/-- A suspended stack goes on where the free locks are all there is to know. -/
theorem Suspended.resume {stack : List (Context L T)} (h : Suspended schedulerLock stack)
    (hstack : σ.stack = stack) (hfree : ∀ l, σ.locked l = false) (hdepth : σ.spinlockDepth = 0)
    (hsaved : ∀ t, Suspended schedulerLock (σ.saved t)) :
    ∃ c rest, Inv schedulerLock σ c rest := by
  obtain ⟨c, rest, rfl, ⟨hp, hy⟩, hheld, hbelow⟩ := h
  have hyield : c.YieldOk schedulerLock := by
    rw [Context.YieldOk, hy]
    trivial
  refine ⟨c, rest, hstack, .outside hfree hdepth (.outside hp hheld hyield) hheld ?_ ?_, hbelow,
    hsaved⟩
  · simp [Context.owned, hp, hheld]
  · simp [hp, Point.offset]

/-- An interrupt finds every lock free. -/
theorem Inv.interrupt (h : Inv schedulerLock σ c rest) :
    ∃ c' rest', Inv schedulerLock σ.interrupt c' rest' := by
  unfold Cpu.interrupt
  split
  next hon =>
    have hstanding := h.executing.toStanding
    rw [hon] at hstanding
    obtain ⟨hheld, howned, hoffset⟩ := hstanding.unmasked
    have hfree (l : L) : σ.locked l = false := by
      have hl := (h.executing.locked l).not
      simpa [howned] using hl
    have hzero : σ.spinlockDepth = 0 := by simpa [hheld, hoffset] using h.executing.depth
    refine ⟨_, σ.stack, rfl, .outside hfree hzero (.outside rfl rfl trivial) rfl rfl rfl, ?_, h.saved⟩
    rw [h.stack, Below, hon]
    exact ⟨rfl, hstanding, h.below⟩
  next => exact ⟨c, rest, h⟩

theorem Inv.iret (h : Inv schedulerLock σ c rest) (hp : c.point = .code) (hheld : c.held = [])
    {flag : Bool} (hframe : c.frame = some flag) :
    ∃ c' rest', Inv schedulerLock { σ with interruptFlag := flag, stack := rest } c' rest' := by
  obtain ⟨hfree, hzero⟩ := h.executing.free hp hheld
  have hbelow := h.below
  rw [hframe] at hbelow
  cases rest with
  | nil => cases hbelow
  | cons d rest =>
    obtain ⟨hflag, hstanding, hrest⟩ := hbelow
    obtain rfl := Option.some.inj hflag
    obtain ⟨hheld', howned, hoffset⟩ := hstanding.unmasked
    exact ⟨d, rest, rfl, .outside hfree hzero hstanding hheld' howned hoffset, hrest, h.saved⟩

/-- In its own code a context that finds the counter zero holds no lock. -/
theorem Executing.held_eq_nil (h : Executing schedulerLock σ c) (hp : c.point = .code)
    (hdepth : σ.spinlockDepth = 0) : c.held = [] := by
  have hlength := h.depth
  rw [hp, hdepth] at hlength
  exact List.length_eq_zero_iff.mp (by simpa [Point.offset] using hlength.symm)

end

section
variable {L T : Type} [DecidableEq L] [DecidableEq T] {schedulerLock : L} {σ σ' : Cpu L T}
  {c : Context L T} {rest : List (Context L T)} {act : Action L T}

theorem Inv.proceed {target : Option (T × T)} (h : Inv schedulerLock σ c rest)
    (hs : σ.proceed schedulerLock c rest target = .ok σ') :
    ∃ c' rest', Inv schedulerLock σ' c' rest' := by
  unfold Cpu.proceed at hs
  split at hs
  next y hp hy =>
    by_cases hswitch : ∃ prev next, y = .switch prev next
    · obtain ⟨prev, next, rfl⟩ := hswitch
      obtain rfl := Except.ok.inj hs
      have hyield := h.executing.yield
      rw [Context.YieldOk, hy] at hyield
      obtain ⟨hfree, hzero⟩ := h.executing.free hp hyield.2
      refine (h.saved next).resume rfl hfree hzero fun t => ?_
      simp only [Function.update_apply]
      split
      next => exact h.suspend hp hyield.2
      next => exact h.saved t
    · exact h.advance
        (h.executing.yieldStep hp hy (fun prev next he => hswitch ⟨prev, next, he⟩) hs)
  next hne =>
    by_cases hp : c.point = .code
    · rw [Cpu.lockStep, hp] at hs
      exact Except.ok.inj hs ▸ ⟨c, rest, h⟩
    · exact h.advance (h.executing.lockStep hp hs)

theorem Inv.step (h : Inv schedulerLock σ c rest) (hd : c.Allows act) (hfew : σ.FewLocks act)
    (hs : σ.step schedulerLock act = .ok σ') : ∃ c' rest', Inv schedulerLock σ' c' rest' := by
  have hstack := h.stack
  unfold Cpu.step at hs
  rw [hstack] at hs
  cases act with
  | lock lock flags =>
    obtain ⟨⟨hp, hy⟩, hnew⟩ := hd
    refine h.advance (h.executing.spinLockIrqsave (y := c.yield) hp hnew (hfew c rest hstack)
      (fun l before _ => ?_) hs)
    rw [Context.YieldOk, hy]
    trivial
  | unlock lock flags =>
    obtain ⟨⟨hp, hy⟩, s, outer, hheld, rfl, rfl⟩ := hd
    refine h.advance (h.executing.spinUnlockIrqrestore (y := c.yield) hp hheld ?_ hs)
    rw [Context.YieldOk, hy]
    trivial
  | setFlag on =>
    obtain ⟨⟨hp, hy⟩, hheld⟩ := hd
    obtain rfl := Except.ok.inj hs
    obtain ⟨hstanding, hlocked, hdepth⟩ := h.executing
    refine ⟨c, rest, rfl, ⟨⟨hstanding.nested, hstanding.room, fun hne => ?_, ?_, hstanding.yield⟩,
      hlocked, hdepth⟩, h.below, h.saved⟩
    · cases on with
      | true => exact absurd (hheld rfl) hne
      | false => rfl
    · rw [Context.PointOk, hp]
      trivial
  | irqEnter =>
    obtain rfl := Except.ok.inj hs
    exact ⟨c, rest, h.congr rfl rfl rfl rfl h.saved⟩
  | irqExit =>
    simp only at hs
    split at hs
    next => cases hs
    next =>
      obtain rfl := Except.ok.inj hs
      exact ⟨c, rest, h.congr rfl rfl rfl rfl h.saved⟩
  | spawn t =>
    obtain rfl := Except.ok.inj hs
    refine ⟨c, rest, h.congr rfl rfl rfl rfl fun u => ?_⟩
    simp only [Function.update_apply]
    split
    next => exact ⟨.fresh, [], rfl, ⟨rfl, rfl⟩, rfl, rfl⟩
    next => exact h.saved u
  | yield =>
    obtain ⟨⟨⟩, hassert, rfl⟩ := map_ok hs
    have hheld := h.executing.held_eq_nil hd.1 (schedAssertCanSwitch_depth hassert)
    exact h.advance ⟨σ, _, rfl, rfl, rfl, h.executing.moves hd.1 hheld rfl rfl ⟨hd.1, hheld⟩⟩
  | proceed target => exact h.proceed hs
  | interrupt =>
    obtain rfl := Except.ok.inj hs
    exact h.interrupt
  | iret =>
    obtain ⟨⟨hp, hy⟩, hheld⟩ := hd
    simp only at hs
    split at hs
    next flag hframe =>
      obtain rfl := Except.ok.inj hs
      exact h.iret hp hheld hframe
    next => cases hs

end

end Tianole.Locking
