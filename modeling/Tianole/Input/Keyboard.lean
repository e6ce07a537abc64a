import Tianole.Input.Set1
import Tianole.Lib.RingBuffer
import Tianole.Lib.Word
import Tianole.Work.Workqueue

/-! The path of a scancode through `drivers/input/keyboard/ps2.c`: the interrupt puts it into
the raw ring and queues the driver's work item, and the worker decodes it. -/
namespace Tianole.Input
open Runs Word Work

def ps2StatusOutputFull : UInt8 := 0x01
def ps2RawQueueCapacity : ℕ := 32

/-- `struct ps2_keyboard` without its lock and its work item. -/
structure Ps2Keyboard where
  raw : RingBuffer UInt8
  dropped : ℕ
  decoder : Decoder

def ps2RawPop (kb : Ps2Keyboard) : Ps2Keyboard × Option UInt8 :=
  if kb.raw.count = 0 then (kb, none)
  else ({ kb with raw := kb.raw.drop ps2RawQueueCapacity }, some kb.raw.front)

/-- The locked part of `ps2_keyboard_irq`; `false` means that the byte was dropped. -/
def ps2RawPush (kb : Ps2Keyboard) (scancode : UInt8) : Ps2Keyboard × Bool :=
  if kb.raw.count = ps2RawQueueCapacity then
    ({ kb with dropped := wrap64 (kb.dropped + 1) }, false)
  else ({ kb with raw := kb.raw.push ps2RawQueueCapacity scancode }, true)

/-- `&ps2_keyboard.work`. -/
def ps2Work : WorkPtr := 1

/-- The workqueue, the keyboard, the byte that the worker has popped and not yet decoded, and
what has happened: the bytes the interrupt accepted, how many it rejected, and the bytes that
have been decoded. -/
structure Pipeline where
  work : WorkSystem
  keyboard : Ps2Keyboard
  inHand : Option UInt8
  accepted : List UInt8
  rejected : ℕ
  decoded : List UInt8

inductive PipelineAction where
  | irq (status scancode : UInt8)
  | work (act : WorkAction)
  deriving DecidableEq, Repr

namespace Pipeline

/-- `ps2_keyboard_irq` runs with interrupts disabled; the result of `queue_work` is ignored. -/
def irq (π : Pipeline) (status scancode : UInt8) : Pipeline :=
  if status &&& ps2StatusOutputFull = 0 then π
  else match ps2RawPush π.keyboard scancode with
    | (kb, false) => { π with keyboard := kb, rejected := π.rejected + 1 }
    | (kb, true) => { π with
        keyboard := kb, accepted := π.accepted ++ [scancode], work := π.work.queued (some ps2Work) }

/-- A step of the worker inside `ps2_keyboard_work`: pop the next byte or, when there is none,
return; then decode the byte. -/
def callback (π : Pipeline) : Pipeline :=
  match π.inHand with
  | some scancode => { π with
      inHand := none, decoded := π.decoded ++ [scancode]
      keyboard := { π.keyboard with decoder := decodeScancode π.keyboard.decoder scancode } }
  | none =>
      match ps2RawPop π.keyboard with
      | (_, none) => { π with work := { π.work with worker := .popping } }
      | (kb, some scancode) => { π with keyboard := kb, inHand := some scancode }

def step (π : Pipeline) : PipelineAction → Except WorkStop Pipeline
  | .irq status scancode => .ok (π.irq status scancode)
  | .work act =>
      if act = .worker ∧ π.work.worker = .inside ps2Work then .ok π.callback
      else (π.work.step act).map fun work => { π with work := work }

/-- The driver's item was initialised by `ps2_keyboard_init`; every other item is initialised
before its first use. -/
def Admissible (π : Pipeline) : PipelineAction → Prop
  | .irq _ _ => True
  | .work act => π.work.Admissible act ∧ ∀ func, act ≠ .init ps2Work func

/-- After `ps2_keyboard_init`. -/
structure Initial (π : Pipeline) : Prop where
  queue : ∃ work func, work ps2Work = ⟨some func, none, false⟩ ∧ π.work =
    ⟨⟨work, none, none, true⟩, .waiting, fun w => decide (w = ps2Work), [], [], []⟩
  keyboard : ∃ slots, π.keyboard = ⟨.empty slots, 0, .initial⟩
  start : π.inHand = none ∧ π.accepted = [] ∧ π.rejected = 0 ∧ π.decoded = []

def Reachable : Pipeline → Prop := Reach step Initial Admissible

/-- The bytes in the raw ring. -/
def raw (π : Pipeline) : List UInt8 := π.keyboard.raw.contents ps2RawQueueCapacity

/-- The worker has taken the driver's item and has not yet found the ring empty. -/
def Draining (π : Pipeline) : Prop :=
  π.work.worker = .calling ps2Work ∨ π.work.worker = .inside ps2Work

end Pipeline

/-- Every accepted byte is decoded, in the worker's hand or in the ring, in this order; and
while the ring holds bytes the worker is on its way to them. -/
structure Flows (π : Pipeline) (l : List WorkPtr) : Prop where
  delivered : Delivered π.work l
  valid : π.keyboard.raw.Valid ps2RawQueueCapacity
  bytes : π.accepted = π.decoded ++ π.inHand.toList ++ π.raw
  dropped : π.keyboard.dropped = wrap64 π.rejected
  decoder : π.keyboard.decoder = ps2KeyboardWork .initial π.decoded
  inHand : π.inHand ≠ none → π.work.worker = .inside ps2Work
  awake : π.raw ≠ [] → ps2Work ∈ l ∨ π.Draining
  item : π.work.initialised ps2Work = true ∧ (π.work.queue.work ps2Work).func ≠ none

section
variable {π π' : Pipeline} {l : List WorkPtr}

theorem wrap64_succ (n : ℕ) : wrap64 (wrap64 n + 1) = wrap64 (n + 1) := Nat.mod_add_mod _ _ _

theorem Flows.irq (h : Flows π l) (status scancode : UInt8) :
    ∃ l', Flows (π.irq status scancode) l' := by
  unfold Pipeline.irq
  split_ifs with hs
  · exact ⟨l, h⟩
  · by_cases hfull : π.keyboard.raw.count = ps2RawQueueCapacity
    · simp only [ps2RawPush, hfull, if_true]
      refine ⟨l, h.delivered, h.valid, h.bytes, ?_, h.decoder, h.inHand, h.awake, h.item⟩
      simp only [h.dropped, wrap64_succ]
    · simp only [ps2RawPush, hfull, if_false]
      have hroom : π.keyboard.raw.count < ps2RawQueueCapacity :=
        Nat.lt_of_le_of_ne h.valid.count hfull
      obtain ⟨l', hd, -, hmem, hinit, hfunc⟩ := h.delivered.queued (some ps2Work) h.item.1
      refine ⟨l', hd, h.valid.push hroom, ?_, h.dropped, h.decoder, h.inHand,
        fun _ => .inl (hmem _ rfl h.item.2), ?_, ?_⟩
      · simp only [Pipeline.raw, h.valid.contents_push hroom, ← List.append_assoc]
        rw [h.bytes]
        rfl
      · rw [hinit]
        exact h.item.1
      · rw [hfunc]
        exact h.item.2

/-- The worker inside the driver's callback. -/
theorem Flows.callback (h : Flows π l) (hw : π.work.worker = .inside ps2Work) :
    Flows π.callback l := by
  have hdrain : π.Draining := .inr hw
  unfold Pipeline.callback
  cases hhand : π.inHand with
  | some byte =>
    refine ⟨h.delivered, h.valid, ?_, h.dropped, ?_, by simp, fun _ => .inr hdrain, h.item⟩
    · have hb := h.bytes
      rw [hhand] at hb
      simpa [Pipeline.raw] using hb
    · simp [ps2KeyboardWork, h.decoder]
  | none =>
    by_cases hempty : π.keyboard.raw.count = 0
    · simp only [ps2RawPop, hempty, if_true]
      have hraw : π.raw = [] := RingBuffer.contents_of_count_eq_zero hempty
      have hb := h.bytes
      rw [hhand] at hb
      have hentered : π.work.popped = π.work.entered := by
        simpa [hw, Worker.atHand] using h.delivered.entered
      refine ⟨⟨h.delivered.listed, h.delivered.accepted, by simpa [Worker.atHand] using hentered,
        h.delivered.pending, h.delivered.known, h.delivered.ready⟩, h.valid, hb, h.dropped,
        h.decoder, fun hn => absurd rfl hn, fun hn => absurd hraw hn, h.item⟩
    · simp only [ps2RawPop, hempty, if_false]
      have hsome : 0 < π.keyboard.raw.count := Nat.pos_of_ne_zero hempty
      refine ⟨h.delivered, h.valid.drop hsome, ?_, h.dropped, h.decoder, fun _ => hw,
        fun _ => .inr hdrain, h.item⟩
      have hb := h.bytes
      rw [hhand, Pipeline.raw, h.valid.contents_drop hsome] at hb
      simpa [Pipeline.raw] using hb

/-- Every other step of the workqueue. -/
theorem Flows.work (h : Flows π l) {act : WorkAction} (hadm : π.work.Admissible act)
    (hitem : ∀ func, act ≠ .init ps2Work func)
    (hout : ¬ (act = .worker ∧ π.work.worker = .inside ps2Work)) :
    ∃ σ' l', π.work.step act = .ok σ' ∧ Flows { π with work := σ' } l' := by
  cases act with
  | init w func =>
    have hne : ps2Work ≠ w := by rintro rfl; exact hitem func rfl
    refine ⟨_, l, rfl, h.delivered.init hadm, h.valid, h.bytes, h.dropped, h.decoder, h.inHand,
      h.awake, ?_, ?_⟩
    · simpa only [Function.update_of_ne hne] using h.item.1
    · simpa only [workInit, Workqueue.modify_work, hne, if_false] using h.item.2
  | queue work =>
    obtain ⟨l', hd, hsub, -, hinit, hfunc⟩ := h.delivered.queued work hadm
    refine ⟨_, l', rfl, hd, h.valid, h.bytes, h.dropped, h.decoder, h.inHand,
      fun hn => (h.awake hn).imp_left fun hm => hsub hm, ?_, ?_⟩
    · rw [hinit]
      exact h.item.1
    · rw [hfunc]
      exact h.item.2
  | worker =>
    have hnot : π.work.worker ≠ .inside ps2Work := fun hw => hout ⟨rfl, hw⟩
    have hnone : π.inHand = none := not_not.mp fun hn => hnot (h.inHand hn)
    obtain ⟨σ', l', hs, hd, hleft, hinit, hfunc⟩ := h.delivered.worker
    refine ⟨σ', l', hs, hd, h.valid, h.bytes, h.dropped, h.decoder, fun hn => absurd hnone hn,
      fun hn => ?_, ?_, ?_⟩
    · rcases h.awake hn with hm | hcall | hin
      · exact (hleft _ hm).imp_right .inl
      · -- The item was in the worker's hands: its callback is entered.
        simp only [WorkSystem.workerStep, hcall, h.item.2, if_false] at hs
        obtain rfl := Except.ok.inj hs
        exact .inr (.inr rfl)
      · exact absurd hin hnot
    · rw [hinit]
      exact h.item.1
    · rw [hfunc]
      exact h.item.2

theorem Flows.step (h : Flows π l) {act : PipelineAction} (hadm : π.Admissible act) :
    ∃ π' l', π.step act = .ok π' ∧ Flows π' l' := by
  cases act with
  | irq status scancode =>
    obtain ⟨l', hf⟩ := h.irq status scancode
    exact ⟨_, l', rfl, hf⟩
  | work act =>
    by_cases hin : act = .worker ∧ π.work.worker = .inside ps2Work
    · exact ⟨_, l, by rw [Pipeline.step, if_pos hin], h.callback hin.2⟩
    · obtain ⟨σ', l', hs, hf⟩ := h.work hadm.1 hadm.2 hin
      exact ⟨_, l', by rw [Pipeline.step, if_neg hin, hs]; rfl, hf⟩

theorem Pipeline.Initial.flows (h : π.Initial) : Flows π [] := by
  obtain ⟨work, func, hwork, hsys⟩ := h.queue
  obtain ⟨slots, hkb⟩ := h.keyboard
  obtain ⟨hhand, hacc, hrej, hdec⟩ := h.start
  have hraw : π.raw = [] := by rw [Pipeline.raw, hkb]; rfl
  refine ⟨?_, ?_, ?_, ?_, ?_, fun hn => absurd hhand hn, fun hn => absurd hraw hn, ?_⟩
  · rw [hsys]
    refine ⟨⟨rfl, rfl⟩, rfl, rfl, fun w hw => ?_, by simp, rfl⟩
    obtain rfl : w = ps2Work := by simpa using hw
    simp [hwork]
  · rw [hkb]
    exact RingBuffer.valid_empty slots (by decide)
  · rw [hacc, hdec, hhand, hraw]
    rfl
  · rw [hkb, hrej]
    rfl
  · rw [hkb, hdec]
    rfl
  · rw [hsys]
    exact ⟨by simp, by simp [hwork]⟩

theorem reachable_flows (h : π.Reachable) : ∃ l, Flows π l := by
  refine Reach.invariant (I := fun π => ∃ l, Flows π l) h (fun π hi => ⟨[], hi.flows⟩) ?_
  rintro π act π' ⟨l, hf⟩ hadm hs
  obtain ⟨π'', l', hs', hf'⟩ := hf.step hadm
  obtain rfl := Except.ok.inj (hs.symm.trans hs')
  exact ⟨l', hf'⟩

theorem Pipeline.irq_rejected (π : Pipeline) (status scancode : UInt8) :
    (π.irq status scancode).rejected = if status &&& ps2StatusOutputFull ≠ 0 ∧
      π.keyboard.raw.count = ps2RawQueueCapacity then π.rejected + 1 else π.rejected := by
  unfold Pipeline.irq ps2RawPush
  by_cases hs : status &&& ps2StatusOutputFull = 0
  · simp [hs]
  · by_cases hfull : π.keyboard.raw.count = ps2RawQueueCapacity
    · simp [hs, hfull]
    · simp [hs, hfull]

end

/-- The bytes decoded so far, the byte that the worker is about to decode and the bytes in the
ring are the bytes that were accepted, in order. The counter of rejected bytes is a 64-bit
word; a byte is rejected only when 32 are queued. While the ring holds bytes, the driver's item
is pending, or the worker has taken it and has not yet found the ring empty. -/
theorem keyboard_pipeline {π : Pipeline} (h : π.Reachable) :
    π.accepted = π.decoded ++ π.inHand.toList ++ π.raw ∧
      (π.inHand ≠ none → π.work.worker = .inside ps2Work) ∧
      π.keyboard.decoder = ps2KeyboardWork .initial π.decoded ∧
      π.keyboard.dropped = π.rejected % 2 ^ 64 ∧
      (∀ status scancode, (π.irq status scancode).rejected ≠ π.rejected → π.raw.length = 32) ∧
      (π.raw ≠ [] → (π.work.queue.work ps2Work).pending = true ∨ π.Draining) := by
  obtain ⟨l, hf⟩ := reachable_flows h
  refine ⟨hf.bytes, hf.inHand, hf.decoder, hf.dropped, fun status scancode hne => ?_, fun hn => ?_⟩
  · rw [Pipeline.irq_rejected] at hne
    split_ifs at hne with hfull
    · exact RingBuffer.length_contents.trans hfull.2
    · exact absurd rfl hne
  · exact (hf.awake hn).imp_left (hf.delivered.pending ps2Work hf.item.1).mpr

/-- The keyboard after `ps2_keyboard_init`. -/
def Pipeline.boot : Pipeline where
  work := ⟨⟨fun _ => ⟨some 1, none, false⟩, none, none, true⟩, .waiting,
    fun w => decide (w = ps2Work), [], [], []⟩
  keyboard := ⟨.empty fun _ => 0, 0, .initial⟩
  inHand := none
  accepted := []
  rejected := 0
  decoded := []

theorem boot_reachable : Pipeline.boot.Reachable :=
  .start ⟨⟨_, 1, rfl, rfl⟩, ⟨_, rfl⟩, rfl, rfl, rfl, rfl⟩

theorem keyboard_pipeline_irq : ∃ π : Pipeline, π.Reachable ∧ π.raw = [0x1e] ∧
    ((π.work.queue.work ps2Work).pending = true ∨ π.Draining) := by
  obtain ⟨π, hr, hraw⟩ := Reach.exec_map boot_reachable [.irq 1 0x1e]
    (by simp [Pipeline.Admissible]) (f := Pipeline.raw) (b := [0x1e]) rfl
  have hne : π.raw ≠ [] := by simp [hraw]
  exact ⟨π, hr, hraw, (keyboard_pipeline hr).2.2.2.2.2 hne⟩

/-- With the ring full, every further byte is rejected, however many come. -/
theorem reject_any (n : ℕ) : ∃ π : Pipeline, π.Reachable ∧
    π.keyboard.raw.count = ps2RawQueueCapacity ∧ π.rejected = n := by
  induction n with
  | zero =>
    obtain ⟨π, hr, hfull⟩ := Reach.exec_map boot_reachable (List.replicate 32 (.irq 1 0))
      (by simp [Pipeline.Admissible]) (f := fun π => (π.keyboard.raw.count, π.rejected))
      (b := (ps2RawQueueCapacity, 0)) (by decide +kernel)
    exact ⟨π, hr, congrArg Prod.fst hfull, congrArg Prod.snd hfull⟩
  | succ n ih =>
    obtain ⟨π, hr, hfull, hn⟩ := ih
    refine ⟨π.irq 1 0, .next (a := .irq 1 0) hr trivial rfl, ?_, ?_⟩
    · simp [Pipeline.irq, ps2RawPush, hfull, ps2StatusOutputFull]
    · rw [Pipeline.irq_rejected, if_pos ⟨by decide, hfull⟩, hn]

/-- After `2 ^ 64` rejected bytes the counter is back at 0. -/
theorem dropped_counter_wraps : ∃ π : Pipeline, π.Reachable ∧
    π.rejected = 2 ^ 64 ∧ π.keyboard.dropped = 0 := by
  obtain ⟨π, hr, -, hn⟩ := reject_any (2 ^ 64)
  obtain ⟨l, hf⟩ := reachable_flows hr
  exact ⟨π, hr, hn, by rw [hf.dropped, hn]; decide⟩

end Tianole.Input
