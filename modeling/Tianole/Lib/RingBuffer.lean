import Mathlib.Data.List.Induction
import Mathlib.Data.Nat.Notation
import Mathlib.Logic.Function.Basic

/-! Ring buffers: a fixed array of slots, an index to read, an index to write, and a count. -/

structure RingBuffer (α : Type*) where
  slots : ℕ → α
  head : ℕ
  tail : ℕ
  count : ℕ

namespace RingBuffer

variable {α : Type*} {capacity : ℕ} {r : RingBuffer α} {x : α}

/-- Every index is zero; what the slots hold does not matter. -/
def empty (slots : ℕ → α) : RingBuffer α := ⟨slots, 0, 0, 0⟩

/-- Write at the tail. The caller has checked that there is room. -/
def push (capacity : ℕ) (r : RingBuffer α) (x : α) : RingBuffer α :=
  { r with slots := Function.update r.slots r.tail x, tail := (r.tail + 1) % capacity,
           count := r.count + 1 }

/-- The value at the head. -/
def front (r : RingBuffer α) : α := r.slots r.head

/-- Step over the head. The caller has checked that there is something to read. -/
def drop (capacity : ℕ) (r : RingBuffer α) : RingBuffer α :=
  { r with head := (r.head + 1) % capacity, count := r.count - 1 }

/-- What is in the ring, oldest first. -/
def contents (capacity : ℕ) (r : RingBuffer α) : List α :=
  (List.range r.count).map fun i => r.slots ((r.head + i) % capacity)

structure Valid (capacity : ℕ) (r : RingBuffer α) : Prop where
  head : r.head < capacity
  count : r.count ≤ capacity
  tail : r.tail = (r.head + r.count) % capacity

@[simp] theorem length_contents : (r.contents capacity).length = r.count := by simp [contents]

theorem contents_of_count_eq_zero (h : r.count = 0) : r.contents capacity = [] := by
  simp [contents, h]

theorem valid_empty (slots : ℕ → α) (h : 0 < capacity) : (empty slots).Valid capacity :=
  ⟨h, Nat.zero_le _, by simp [empty]⟩

@[simp] theorem contents_empty (slots : ℕ → α) : (empty slots).contents capacity = [] := rfl

theorem Valid.push (h : r.Valid capacity) (hroom : r.count < capacity) :
    (r.push capacity x).Valid capacity := by
  refine ⟨h.head, hroom, ?_⟩
  simp only [RingBuffer.push]
  rw [h.tail, Nat.mod_add_mod, Nat.add_assoc]

/-- The slot at the tail is not in use as long as there is room. -/
theorem Valid.slot_ne (h : r.Valid capacity) (hroom : r.count < capacity) {i : ℕ}
    (hi : i < r.count) : (r.head + i) % capacity ≠ r.tail := by
  rw [h.tail]
  intro he
  have hzero := Nat.sub_mod_eq_zero_of_mod_eq he.symm
  rw [Nat.add_sub_add_left, Nat.mod_eq_of_lt (by omega)] at hzero
  omega

theorem Valid.contents_push (h : r.Valid capacity) (hroom : r.count < capacity) :
    (r.push capacity x).contents capacity = r.contents capacity ++ [x] := by
  simp only [contents, RingBuffer.push, List.range_succ, List.map_append, List.map_cons, List.map_nil]
  congr 1
  · refine List.map_congr_left fun i hi => ?_
    exact Function.update_of_ne (h.slot_ne hroom (List.mem_range.mp hi)) _ _
  · rw [h.tail, Function.update_self]

theorem Valid.drop (h : r.Valid capacity) (hsome : 0 < r.count) :
    (r.drop capacity).Valid capacity := by
  refine ⟨Nat.mod_lt _ (by have := h.head; omega), ?_, ?_⟩
  · have := h.count
    simp only [RingBuffer.drop]
    omega
  · simp only [RingBuffer.drop]
    rw [h.tail, Nat.mod_add_mod]
    congr 1
    omega

theorem Valid.contents_drop (h : r.Valid capacity) (hsome : 0 < r.count) :
    r.contents capacity = r.front :: (r.drop capacity).contents capacity := by
  obtain ⟨n, hn⟩ : ∃ n, r.count = n + 1 := ⟨r.count - 1, by omega⟩
  simp only [contents, RingBuffer.drop, front, hn, List.range_succ_eq_map, List.map_cons, List.map_map,
    Nat.add_zero, Nat.mod_eq_of_lt h.head, Nat.add_sub_cancel]
  congr 1
  refine List.map_congr_left fun i _ => ?_
  simp only [Function.comp, Nat.mod_add_mod]
  congr 2
  omega

/-- Write at the tail. When there is no room, the value at the head is given up for it. -/
def pushOver (capacity : ℕ) (r : RingBuffer α) (x : α) : RingBuffer α :=
  if r.count < capacity then r.push capacity x else (r.drop capacity).push capacity x

/-- The oldest value is missing when there was no room. -/
theorem Valid.pushOver (h : r.Valid capacity) : (r.pushOver capacity x).Valid capacity ∧
    (r.pushOver capacity x).contents capacity =
      (r.contents capacity ++ [x]).drop (r.count + 1 - capacity) := by
  have hhead := h.head
  have hcount := h.count
  unfold RingBuffer.pushOver
  split
  next hroom =>
    have hnone : r.count + 1 - capacity = 0 := by omega
    rw [h.contents_push hroom, hnone]
    exact ⟨h.push hroom, rfl⟩
  next hfull =>
    have hsome : 0 < r.count := by omega
    have hone : r.count + 1 - capacity = 1 := by omega
    have hroom : (r.drop capacity).count < capacity := by
      simp only [RingBuffer.drop]
      omega
    have hdrop := h.drop hsome
    rw [hdrop.contents_push hroom, h.contents_drop hsome, hone]
    exact ⟨hdrop.push hroom, rfl⟩

/-- A ring that is written over keeps the newest values. -/
theorem contents_foldl_pushOver (slots : ℕ → α) (hpos : 0 < capacity) (l : List α) :
    (l.foldl (pushOver capacity) (empty slots)).Valid capacity ∧
      (l.foldl (pushOver capacity) (empty slots)).contents capacity =
        l.drop (l.length - capacity) := by
  induction l using List.reverseRecOn with
  | nil => exact ⟨valid_empty slots hpos, by rw [List.drop_nil]; exact contents_empty slots⟩
  | append_singleton l x ih =>
    obtain ⟨hvalid, hcontents⟩ := ih
    have hcount := congrArg List.length hcontents
    rw [length_contents, List.length_drop] at hcount
    obtain ⟨hvalid', hcontents'⟩ := hvalid.pushOver (x := x)
    rw [List.foldl_append, List.foldl_cons, List.foldl_nil]
    refine ⟨hvalid', ?_⟩
    rw [hcontents', hcontents, hcount, List.length_append, List.length_singleton,
      ← List.drop_append_of_le_length (Nat.sub_le _ _), List.drop_drop]
    congr 1
    omega

end RingBuffer
