import Tianole.Input.EventQueue
import Tianole.Lib.Runs

/-! The input core as a bounded first-in first-out queue: what reports, reads and queries return
over any sequence of calls. -/
namespace Tianole.Input
open Word Runs

/-- The fields of `struct input_dev` that reporting reads. -/
structure InputDev where
  capabilities : UInt32
  id : UInt32
  registered : Bool
  deriving DecidableEq, Repr

def inputEventKey : UInt16 := 1
def inputDeviceCapKey : UInt32 := 1

/-- `now` is what `timer_ticks` returns. -/
def inputReportKey (q : InputQueue) (dev : Option InputDev) (code : UInt16) (value : Int32)
    (modifiers : UInt32) (now : UInt64) : InputQueue × ℤ :=
  match dev with
  | none => (q, -Errno.inval)
  | some dev =>
      if dev.registered = false ∨ dev.capabilities &&& inputDeviceCapKey = 0 then (q, -Errno.inval)
      else inputReportEvent q (some ⟨inputEventKey, code, value, modifiers, dev.id, now⟩)

/-- `storage` tells whether the caller's pointer is not null. -/
def inputTryReadEvent (q : InputQueue) (storage : Bool) : InputQueue × Except ℤ InputEvent :=
  if q.initialized = false ∨ storage = false then (q, .error (-Errno.inval)) else inputPopLocked q

def inputDroppedEvents (q : InputQueue) : ℕ := if q.initialized = false then 0 else q.dropped

def inputLastEvent (q : InputQueue) (storage : Bool) : Except ℤ InputEvent :=
  if q.initialized = false ∨ storage = false then .error (-Errno.inval)
  else if q.hasLast = false then .error (-Errno.again)
  else .ok q.last

/-! ### Calls and replies -/

inductive InputCall where
  | reportEvent (event : Option InputEvent)
  | reportKey (dev : Option InputDev) (code : UInt16) (value : Int32) (modifiers : UInt32)
      (now : UInt64)
  | tryReadEvent (storage : Bool)
  | lastEvent (storage : Bool)
  | droppedEvents
  deriving DecidableEq

inductive InputReply where
  | status (ret : ℤ)
  | event (result : Except ℤ InputEvent)
  | count (dropped : ℕ)
  deriving DecidableEq

def inputCall (q : InputQueue) : InputCall → InputQueue × InputReply
  | .reportEvent event => ((inputReportEvent q event).1, .status (inputReportEvent q event).2)
  | .reportKey dev code value modifiers now =>
      ((inputReportKey q dev code value modifiers now).1,
        .status (inputReportKey q dev code value modifiers now).2)
  | .tryReadEvent storage => ((inputTryReadEvent q storage).1, .event (inputTryReadEvent q storage).2)
  | .lastEvent storage => (q, .event (inputLastEvent q storage))
  | .droppedEvents => (q, .count (inputDroppedEvents q))

/-- The event that a call reports: a report without an event, or by a device that is not
registered or has no keys, reports none. -/
def InputCall.reported : InputCall → Option InputEvent
  | .reportEvent event => event
  | .reportKey (some dev) code value modifiers now =>
      if dev.registered ∧ dev.capabilities &&& inputDeviceCapKey ≠ 0 then
        some ⟨inputEventKey, code, value, modifiers, dev.id, now⟩
      else none
  | _ => none

/-- The events whose report returned 0. -/
def accepted (l : List (InputCall × InputReply)) : List InputEvent :=
  l.filterMap fun e => if e.2 = .status 0 then e.1.reported else none

/-- The events that reads have returned. -/
def taken (l : List (InputCall × InputReply)) : List InputEvent :=
  l.filterMap fun e => match e with
    | (.tryReadEvent _, .event (.ok event)) => some event
    | _ => none

/-- How many reports returned `-ENOSPC`. -/
def refused (l : List (InputCall × InputReply)) : ℕ := l.countP (·.2 = .status (-Errno.nospc))

section
variable {q : InputQueue} {l : List (InputCall × InputReply)} {call : InputCall}
  {event : InputEvent} {reply : InputReply}

/-! ### What one call does -/

/-- A report of an event is refused by a full ring, which only counts it. -/
theorem inputCall_report (hinit : q.initialized = true) (h : call.reported = some event) :
    inputCall q call = if q.events.count = inputQueueCapacity then
        ({ q with dropped := wrap64 (q.dropped + 1) }, .status (-Errno.nospc))
      else ({ q with events := q.events.push inputQueueCapacity event, last := event,
                     hasLast := true }, .status 0) := by
  have hreport : inputReportEvent q (some event) = if q.events.count = inputQueueCapacity then
        ({ q with dropped := wrap64 (q.dropped + 1) }, -Errno.nospc)
      else ({ q with events := q.events.push inputQueueCapacity event, last := event,
                     hasLast := true }, 0) := by simp only [inputReportEvent, hinit]; rfl
  cases call with
  | reportEvent e =>
    obtain rfl : e = some event := h
    rw [inputCall, hreport]
    split <;> rfl
  | reportKey dev code value modifiers now =>
    cases dev with
    | none => cases h
    | some dev =>
      rw [InputCall.reported] at h
      split at h
      next hdev =>
        obtain rfl := Option.some.inj h
        have hok : ¬(dev.registered = false ∨ dev.capabilities &&& inputDeviceCapKey = 0) := by
          simpa [not_or] using hdev
        rw [inputCall, inputReportKey, if_neg hok, hreport]
        split <;> rfl
      next => cases h
  | tryReadEvent storage => cases h
  | lastEvent storage => cases h
  | droppedEvents => cases h

/-- Replies that neither accept nor refuse an event, nor return one to a reader. -/
def Silent (call : InputCall) (reply : InputReply) : Prop :=
  reply ≠ .status 0 ∧ reply ≠ .status (-Errno.nospc) ∧
    ∀ storage event, ¬(call = .tryReadEvent storage ∧ reply = .event (.ok event))

/-- Every other call reads the oldest event or changes nothing. -/
theorem inputCall_other (h : call.reported = none) :
    (∃ storage, call = .tryReadEvent storage ∧ 0 < q.events.count ∧ inputCall q call =
      ({ q with events := q.events.drop inputQueueCapacity }, .event (.ok q.events.front))) ∨
    (inputCall q call).1 = q ∧ Silent call (inputCall q call).2 := by
  have hinval : ((-Errno.inval : ℤ) ≠ 0) ∧ (-Errno.inval : ℤ) ≠ -Errno.nospc := by decide
  cases call with
  | reportEvent e =>
    obtain rfl : e = none := h
    have hrej : inputReportEvent q none = (q, -Errno.inval) := by simp [inputReportEvent]
    refine .inr ⟨by rw [inputCall, hrej], ?_⟩
    simp [inputCall, hrej, Silent, hinval]
  | reportKey dev code value modifiers now =>
    have hrej : inputReportKey q dev code value modifiers now = (q, -Errno.inval) := by
      cases dev with
      | none => rfl
      | some dev =>
        rw [InputCall.reported] at h
        split at h
        next => cases h
        next hdev =>
          rw [inputReportKey, if_pos]
          by_contra hok
          exact hdev (by simpa [not_or] using hok)
    refine .inr ⟨by rw [inputCall, hrej], ?_⟩
    simp [inputCall, hrej, Silent, hinval]
  | tryReadEvent storage =>
    rw [inputCall, inputTryReadEvent]
    split
    · exact .inr ⟨rfl, by simp [Silent]⟩
    · rw [inputPopLocked]
      split
      · exact .inr ⟨rfl, by simp [Silent]⟩
      next hsome => exact .inl ⟨storage, rfl, Nat.pos_of_ne_zero hsome, rfl⟩
  | lastEvent storage => exact .inr ⟨rfl, by simp [inputCall, Silent]⟩
  | droppedEvents => exact .inr ⟨rfl, by simp [inputCall, Silent]⟩

/-! ### Sequences of calls -/

/-- The queue after some calls. -/
structure Fifo (q : InputQueue) (l : List (InputCall × InputReply)) : Prop where
  initialized : q.initialized = true
  valid : q.events.Valid inputQueueCapacity
  contents : taken l ++ q.events.contents inputQueueCapacity = accepted l
  dropped : q.dropped = refused l % 2 ^ 64
  last : (accepted l).getLast? = if q.hasLast then some q.last else none

theorem accepted_append (l l' : List (InputCall × InputReply)) :
    accepted (l ++ l') = accepted l ++ accepted l' := List.filterMap_append

theorem taken_append (l l' : List (InputCall × InputReply)) :
    taken (l ++ l') = taken l ++ taken l' := List.filterMap_append

theorem refused_append (l l' : List (InputCall × InputReply)) :
    refused (l ++ l') = refused l + refused l' := List.countP_append

theorem taken_report (h : call.reported = some event) : taken [(call, reply)] = [] := by
  cases call with
  | tryReadEvent storage => cases h
  | _ => rfl

theorem Silent.taken (h : Silent call reply) : taken [(call, reply)] = [] := by
  unfold Input.taken
  rw [List.filterMap_cons_none, List.filterMap_nil]
  split
  next heq => exact absurd (Prod.mk.inj heq) (h.2.2 _ _)
  next => rfl

/-- One call keeps the account. -/
theorem Fifo.next (h : Fifo q l) (call : InputCall) :
    Fifo (inputCall q call).1 (l ++ [(call, (inputCall q call).2)]) := by
  cases hreported : call.reported with
  | some event =>
    rw [inputCall_report h.initialized hreported]
    by_cases hfull : q.events.count = inputQueueCapacity
    · rw [if_pos hfull]
      have hacc : accepted [(call, .status (-Errno.nospc))] = [] := by simp [accepted, Errno.nospc]
      refine ⟨h.initialized, h.valid, ?_, ?_, ?_⟩
      · rw [taken_append, accepted_append, taken_report hreported, hacc, List.append_nil,
          List.append_nil]
        exact h.contents
      · rw [refused_append, wrap64, h.dropped, Nat.mod_add_mod]
        rfl
      · rw [accepted_append, hacc, List.append_nil]
        exact h.last
    · rw [if_neg hfull]
      have hroom : q.events.count < inputQueueCapacity := Nat.lt_of_le_of_ne h.valid.count hfull
      have hacc : accepted [(call, .status 0)] = [event] := by simp [accepted, hreported]
      have href : refused [(call, .status 0)] = 0 := by simp [refused, Errno.nospc]
      refine ⟨h.initialized, h.valid.push hroom, ?_, ?_, ?_⟩
      · rw [taken_append, accepted_append, taken_report hreported, hacc, List.append_nil,
          h.valid.contents_push hroom, ← List.append_assoc, h.contents]
      · rw [refused_append, href]
        exact h.dropped
      · rw [accepted_append, hacc, List.getLast?_concat]
        rfl
  | none =>
    rcases inputCall_other (q := q) hreported with ⟨storage, rfl, hpos, hcall⟩ | ⟨hsame, hsilent⟩
    · rw [hcall]
      refine ⟨h.initialized, h.valid.drop hpos, ?_, ?_, ?_⟩
      · have hcontents := h.contents
        rw [h.valid.contents_drop hpos] at hcontents
        simpa [taken_append, accepted_append, taken, accepted] using hcontents
      · simpa [refused_append, refused] using h.dropped
      · simpa [accepted_append, accepted] using h.last
    · have hacc : accepted [(call, (inputCall q call).2)] = [] := by
        simp [accepted, hsilent.1]
      have href : refused [(call, (inputCall q call).2)] = 0 := by
        simp [refused, hsilent.2.1]
      rw [hsame]
      refine ⟨h.initialized, h.valid, ?_, ?_, ?_⟩
      · rw [taken_append, accepted_append, hsilent.taken, hacc, List.append_nil, List.append_nil]
        exact h.contents
      · rw [refused_append, href]
        exact h.dropped
      · rw [accepted_append, hacc, List.append_nil]
        exact h.last

theorem InputQueue.Started.fifo (h : q.Started) : Fifo q [] := by
  have hholds := h.holds
  obtain ⟨q₀, hq₀, rfl⟩ := h
  have hinit : inputInit q₀ = ⟨.empty q₀.events.slots, 0, q₀.last, false, true⟩ := by
    simp [inputInit, hq₀]
  refine ⟨by rw [hinit], hholds.valid, ?_, by rw [hinit]; rfl, by rw [hinit]; rfl⟩
  rw [RingBuffer.contents_of_count_eq_zero hholds.count]
  rfl

/-- The state after any calls, and those calls with their replies. -/
theorem Fifo.transcript (h : q.Started) (calls : List InputCall) :
    Fifo (transcript inputCall q calls).1 (transcript inputCall q calls).2 :=
  transcript_invariant (I := Fifo) (fun _ _ call h => h.next call) h.fifo calls

end

/-- After any calls to the started input core: what was read and what is queued are the accepted
events in order; the counter is the number of refusals, as a 64-bit number; the indices agree;
the last event is the one accepted last; and a report is refused exactly by a full ring, which
changes nothing but the counter. -/
theorem input_core_fifo {q : InputQueue} (h : q.Started) (calls : List InputCall) :
    ∃ q' l, transcript inputCall q calls = (q', l) ∧
      taken l ++ q'.events.contents 64 = accepted l ∧
      inputDroppedEvents q' = refused l % 2 ^ 64 ∧
      q'.events.tail = (q'.events.head + q'.events.count) % 64 ∧ q'.events.head < 64 ∧
      q'.events.count ≤ 64 ∧
      inputLastEvent q' true = (match (accepted l).getLast? with
        | some event => .ok event
        | none => .error (-Errno.again)) ∧
      ∀ call event, call.reported = some event →
        ((inputCall q' call).2 = .status (-Errno.nospc) ↔ q'.events.count = 64) ∧
        ((inputCall q' call).2 = .status 0 ↔ q'.events.count ≠ 64) ∧
        (q'.events.count = 64 →
          (inputCall q' call).1 = { q' with dropped := (q'.dropped + 1) % 2 ^ 64 }) := by
  have hf := Fifo.transcript h calls
  refine ⟨_, _, rfl, hf.contents, ?_, hf.valid.tail, hf.valid.head, hf.valid.count, ?_, ?_⟩
  · rw [inputDroppedEvents, hf.initialized, ← hf.dropped]
    rfl
  · rw [inputLastEvent, hf.initialized, hf.last]
    cases (transcript inputCall q calls).1.hasLast <;> rfl
  · intro call event hreported
    rw [inputCall_report hf.initialized hreported]
    by_cases hfull : (transcript inputCall q calls).1.events.count = inputQueueCapacity
    · rw [if_pos hfull]
      simp only [inputQueueCapacity] at hfull
      simp [hfull, wrap64, Errno.nospc]
    · rw [if_neg hfull]
      simp only [inputQueueCapacity] at hfull
      simp [hfull, Errno.nospc]

/-- The zeroed queue after `input_init`. -/
def inputBoot : InputQueue :=
  inputInit ⟨.empty fun _ => ⟨0, 0, 0, 0, 0, 0⟩, 0, ⟨0, 0, 0, 0, 0, 0⟩, false, false⟩

theorem inputBoot_started : inputBoot.Started := ⟨_, rfl, rfl⟩

/-- The event of `input_assert_last_event`, reported and read. -/
def selftestEvent : InputEvent := ⟨inputEventKey, 30, 1, 0, 99, 0⟩

theorem input_core_fifo_selftest : ∃ q' l,
    transcript inputCall inputBoot [.reportEvent (some selftestEvent), .tryReadEvent true] =
      (q', l) ∧ accepted l = [selftestEvent] ∧ inputLastEvent q' true = .ok selftestEvent := by
  obtain ⟨q', l, hrun, -, -, -, -, -, hlast, -⟩ := input_core_fifo inputBoot_started
    [.reportEvent (some selftestEvent), .tryReadEvent true]
  have hacc : accepted l = [selftestEvent] := by
    obtain ⟨-, rfl⟩ := Prod.mk.inj hrun
    rfl
  exact ⟨q', l, hrun, hacc, by rw [hlast, hacc]; rfl⟩

/-- The same event reported `n` times. -/
def reports (n : ℕ) : List InputCall := List.replicate n (.reportEvent (some selftestEvent))

/-- As long as there is room, reports fill the ring. -/
theorem transcript_fill {q : InputQueue} (hinit : q.initialized = true) {n : ℕ}
    (hroom : q.events.count + n ≤ inputQueueCapacity) :
    (transcript inputCall q (reports n)).1.initialized = true ∧
      (transcript inputCall q (reports n)).1.events.count = q.events.count + n ∧
      refused (transcript inputCall q (reports n)).2 = 0 := by
  induction n generalizing q with
  | zero => exact ⟨hinit, rfl, rfl⟩
  | succ n ih =>
    have hcall : inputCall q (.reportEvent (some selftestEvent)) = _ := inputCall_report hinit rfl
    rw [if_neg (by omega)] at hcall
    have hrest := @ih { q with events := q.events.push inputQueueCapacity selftestEvent,
                               last := selftestEvent, hasLast := true } hinit
      (by simp only [RingBuffer.push]; omega)
    simp only [reports, List.replicate_succ, transcript, hcall]
    rw [refused, List.countP_cons_of_neg (by simp [Errno.nospc])]
    refine ⟨hrest.1, hrest.2.1.trans ?_, hrest.2.2⟩
    simp only [RingBuffer.push]
    omega

/-- A full ring refuses any number of reports. -/
theorem transcript_full {q : InputQueue} (hinit : q.initialized = true)
    (hfull : q.events.count = inputQueueCapacity) (n : ℕ) :
    refused (transcript inputCall q (reports n)).2 = n := by
  induction n generalizing q with
  | zero => rfl
  | succ n ih =>
    have hcall : inputCall q (.reportEvent (some selftestEvent)) = _ := inputCall_report hinit rfl
    rw [if_pos hfull] at hcall
    have hrest := @ih { q with dropped := wrap64 (q.dropped + 1) } hinit hfull
    simp only [reports, List.replicate_succ, transcript, hcall]
    rw [refused, List.countP_cons_of_pos (by simp)]
    exact congrArg (· + 1) hrest

/-- Any number of refusals is reached: the ring is filled first. -/
theorem refused_any {q : InputQueue} (h : q.Started) (n : ℕ) :
    ∃ calls q' l, transcript inputCall q calls = (q', l) ∧ refused l = n ∧ Fifo q' l := by
  have hfifo := h.fifo
  have hroom : q.events.count + inputQueueCapacity ≤ inputQueueCapacity := by simp [h.holds.count]
  obtain ⟨hinit, hcount, hnone⟩ := transcript_fill hfifo.initialized hroom
  have hfull : (transcript inputCall q (reports inputQueueCapacity)).1.events.count =
      inputQueueCapacity := by rw [hcount, h.holds.count, Nat.zero_add]
  have hf := Fifo.transcript h (reports inputQueueCapacity ++ reports n)
  rw [transcript_append] at hf
  refine ⟨reports inputQueueCapacity ++ reports n, _, _, transcript_append .., ?_, hf⟩
  rw [refused_append, hnone, transcript_full hinit hfull, Nat.zero_add]

/-- After 64 accepted and `2 ^ 64` refused reports the counter is back at 0. -/
theorem refusal_counter_wraps : ∃ calls q l, transcript inputCall inputBoot calls = (q, l) ∧
    refused l = 2 ^ 64 ∧ inputDroppedEvents q = 0 := by
  obtain ⟨calls, q, l, hrun, hrefused, hf⟩ := refused_any inputBoot_started (2 ^ 64)
  refine ⟨calls, q, l, hrun, hrefused, ?_⟩
  rw [inputDroppedEvents, hf.initialized, hf.dropped, hrefused]
  rfl

end Tianole.Input
