import Mathlib.Data.List.Basic
import Tianole.Lib.Tiling
import Tianole.Mm.Heap

/-! The heap as a list of blocks: which bytes spell the list, and what each operation on
headers does to it. -/
namespace Tianole.Mm
open Memory Word Tiling

structure Block where
  addr : ℕ
  size : ℕ
  free : Bool
  deriving DecidableEq, Repr

/-- The address behind the block. -/
def Block.stop (b : Block) : ℕ := b.addr + headerSize + b.size

/-- The header of `b` in memory, between the neighbours `prev` and `next`. -/
structure HeaderAt (m : Mem) (b : Block) (prev next : ℕ) : Prop where
  size : load m b.addr 8 = b.size
  free : load m (b.addr + freeOffset) 1 ≠ 0 ↔ b.free = true
  prev : load m (b.addr + prevOffset) 8 = prev
  next : load m (b.addr + nextOffset) 8 = next

/-- The address of the first block, or `after` when there is none. -/
def headAddr : List Block → ℕ → ℕ
  | [], after => after
  | b :: _, _ => b.addr

/-- The address of the last block, or `before` when there is none. -/
def lastAddr : ℕ → List Block → ℕ
  | before, [] => before
  | _, b :: l => lastAddr b.addr l

/-- The headers of the blocks point to each other, and at the ends to `before` and `after`. -/
def Linked (m : Mem) : ℕ → List Block → ℕ → Prop
  | _, [], _ => True
  | before, b :: l, after => HeaderAt m b before (headAddr l after) ∧ Linked m b.addr l after

section
variable {m m' : Mem} {b c : Block} {l l₁ l₂ : List Block} {before after prev next : ℕ}

@[simp] theorem headAddr_append : headAddr (l₁ ++ l₂) after = headAddr l₁ (headAddr l₂ after) := by
  cases l₁ <;> rfl

@[simp] theorem lastAddr_append : lastAddr before (l₁ ++ l₂) = lastAddr (lastAddr before l₁) l₂ := by
  induction l₁ generalizing before with
  | nil => rfl
  | cons b l ih => exact ih

theorem linked_append : Linked m before (l₁ ++ l₂) after ↔
    Linked m before l₁ (headAddr l₂ after) ∧ Linked m (lastAddr before l₁) l₂ after := by
  induction l₁ generalizing before with
  | nil => simp [Linked, lastAddr]
  | cons b l ih => simp only [List.cons_append, Linked, headAddr_append, ih, lastAddr, and_assoc]

theorem HeaderAt.congr (h : HeaderAt m b prev next)
    (hm : ∀ x, b.addr ≤ x → x < b.addr + headerSize → m' x = m x) : HeaderAt m' b prev next := by
  simp only [headerSize] at hm
  refine ⟨?_, ?_, ?_, ?_⟩
  · rw [load_congr fun x h₁ h₂ => hm x (by omega) (by omega)]
    exact h.size
  · rw [load_congr fun x h₁ h₂ => hm x (by simp only [freeOffset] at *; omega)
      (by simp only [freeOffset] at *; omega)]
    exact h.free
  · rw [load_congr fun x h₁ h₂ => hm x (by simp only [prevOffset] at *; omega)
      (by simp only [prevOffset] at *; omega)]
    exact h.prev
  · rw [load_congr fun x h₁ h₂ => hm x (by simp only [nextOffset] at *; omega)
      (by simp only [nextOffset] at *; omega)]
    exact h.next

/-- Only the bytes of the headers matter. -/
theorem Linked.congr (h : Linked m before l after)
    (hm : ∀ b ∈ l, ∀ x, b.addr ≤ x → x < b.addr + headerSize → m' x = m x) :
    Linked m' before l after := by
  induction l generalizing before with
  | nil => trivial
  | cons b l ih =>
    obtain ⟨hb, hl⟩ := h
    exact ⟨hb.congr (hm b (by simp)), ih hl fun c hc => hm c (by simp [hc])⟩

theorem Linked.mem (h : Linked m before l after) (hb : b ∈ l) : ∃ p n, HeaderAt m b p n := by
  induction l generalizing before with
  | nil => cases hb
  | cons c l ih =>
    rcases List.mem_cons.mp hb with rfl | hb
    · exact ⟨_, _, h.1⟩
    · exact ih h.2 hb

end

/-! ### Writes to one header -/

section
variable {h : Heap} {b : Block} {prev next a v width : ℕ}

theorem HeaderAt.size_eq (hb : HeaderAt h.mem b prev next) : h.size b.addr = b.size := hb.size

theorem HeaderAt.free_iff (hb : HeaderAt h.mem b prev next) : h.free b.addr = 0 ↔ b.free = false := by
  have hfree : h.free b.addr ≠ 0 ↔ b.free = true := hb.free
  cases hbf : b.free <;> simp_all

theorem HeaderAt.prev_eq (hb : HeaderAt h.mem b prev next) : h.prev b.addr = prev := hb.prev

theorem HeaderAt.next_eq (hb : HeaderAt h.mem b prev next) : h.next b.addr = next := hb.next

/-- A write next to the header. -/
theorem HeaderAt.write (hb : HeaderAt h.mem b prev next)
    (ha : a + width ≤ b.addr ∨ b.addr + headerSize ≤ a) :
    HeaderAt (h.write a width v).mem b prev next :=
  hb.congr fun _ _ _ => store_of_outside (by omega)

theorem HeaderAt.setSize (hb : HeaderAt h.mem b prev next) (hv : v < 2 ^ 64) :
    HeaderAt (h.setSize b.addr v).mem { b with size := v } prev next := by
  simp only [Heap.setSize, Heap.write]
  refine ⟨load_store_of_lt hv, ?_, ?_, ?_⟩ <;>
    rw [load_store_of_disjoint (by simp only [freeOffset, prevOffset, nextOffset]; omega)]
  · exact hb.free
  · exact hb.prev
  · exact hb.next

theorem HeaderAt.setFree (hb : HeaderAt h.mem b prev next) (hv : v < 256) :
    HeaderAt (h.setFree b.addr v).mem { b with free := decide (v ≠ 0) } prev next := by
  simp only [Heap.setFree, Heap.write]
  refine ⟨?_, ?_, ?_, ?_⟩
  · rw [load_store_of_disjoint (by simp only [freeOffset]; omega)]
    exact hb.size
  · rw [load_store_of_lt (by simpa using hv)]
    simp
  · rw [load_store_of_disjoint (by simp only [freeOffset, prevOffset]; omega)]
    exact hb.prev
  · rw [load_store_of_disjoint (by simp only [freeOffset, nextOffset]; omega)]
    exact hb.next

theorem HeaderAt.setPrev (hb : HeaderAt h.mem b prev next) (hv : v < 2 ^ 64) :
    HeaderAt (h.setPrev b.addr v).mem b v next := by
  simp only [Heap.setPrev, Heap.write]
  refine ⟨?_, ?_, load_store_of_lt hv, ?_⟩ <;>
    rw [load_store_of_disjoint (by simp only [freeOffset, prevOffset, nextOffset]; omega)]
  · exact hb.size
  · exact hb.free
  · exact hb.next

theorem HeaderAt.setNext (hb : HeaderAt h.mem b prev next) (hv : v < 2 ^ 64) :
    HeaderAt (h.setNext b.addr v).mem b prev v := by
  simp only [Heap.setNext, Heap.write]
  refine ⟨?_, ?_, ?_, load_store_of_lt hv⟩ <;>
    rw [load_store_of_disjoint (by simp only [freeOffset, prevOffset, nextOffset]; omega)]
  · exact hb.size
  · exact hb.free
  · exact hb.prev

end

/-! ### What an operation touches -/

/-- Beside the variables of the heap, an operation changes only headers that begin at the
addresses `w`, and every write that it records is a field of one of them. -/
structure Touches (w : List ℕ) (h h' : Heap) : Prop where
  mem : ∀ x, (∀ a ∈ w, x < a ∨ a + headerSize ≤ x) → h'.mem x = h.mem x
  written : ∃ new, h'.written = new ++ h.written ∧
    ∀ r ∈ new, ∃ a ∈ w, a ≤ r.1 ∧ r.1 + r.2 ≤ a + headerSize
  mapped : h'.mapped = h.mapped

section
variable {h h₁ h₂ : Heap} {w w' : List ℕ} {a v width : ℕ}

theorem Touches.trans (h₁' : Touches w h h₁) (h₂' : Touches w h₁ h₂) : Touches w h h₂ := by
  obtain ⟨new₁, he₁, hw₁⟩ := h₁'.written
  obtain ⟨new₂, he₂, hw₂⟩ := h₂'.written
  refine ⟨fun x hx => (h₂'.mem x hx).trans (h₁'.mem x hx), ⟨new₂ ++ new₁, ?_, fun r hr => ?_⟩,
    h₂'.mapped.trans h₁'.mapped⟩
  · rw [he₂, he₁, List.append_assoc]
  · rcases List.mem_append.mp hr with hr | hr
    · exact hw₂ r hr
    · exact hw₁ r hr

theorem Touches.mono (ht : Touches w h h₁) (hsub : ∀ a ∈ w, a ∈ w') : Touches w' h h₁ := by
  obtain ⟨new, he, hw⟩ := ht.written
  refine ⟨fun x hx => ht.mem x fun a ha => hx a (hsub a ha), ⟨new, he, fun r hr => ?_⟩, ht.mapped⟩
  obtain ⟨a, ha, hin⟩ := hw r hr
  exact ⟨a, hsub a ha, hin⟩

theorem Touches.write {x : ℕ} (ha : a ∈ w) (hx : a ≤ x) (hw : x + width ≤ a + headerSize) :
    Touches w h (h.write x width v) := by
  refine ⟨fun y hy => store_of_outside ?_, ⟨[(x, width)], rfl, fun r hr => ?_⟩, rfl⟩
  · have hout := hy a ha
    omega
  · rw [List.mem_singleton.mp hr]
    exact ⟨a, ha, hx, hw⟩

theorem Touches.setFirst : Touches w h (h.setFirst a) :=
  ⟨fun _ _ => rfl, ⟨[], rfl, by simp⟩, rfl⟩

theorem Touches.setLast : Touches w h (h.setLast a) := ⟨fun _ _ => rfl, ⟨[], rfl, by simp⟩, rfl⟩

theorem Touches.setEnd : Touches w h (h.setEnd a) := ⟨fun _ _ => rfl, ⟨[], rfl, by simp⟩, rfl⟩

theorem Touches.setSize (ha : a ∈ w) : Touches w h (h.setSize a v) :=
  .write ha (by omega) (by simp only [headerSize]; omega)

theorem Touches.setFree (ha : a ∈ w) : Touches w h (h.setFree a v) :=
  .write ha (by omega) (by simp only [headerSize, freeOffset]; omega)

theorem Touches.setPrev (ha : a ∈ w) : Touches w h (h.setPrev a v) :=
  .write ha (by omega) (by simp only [headerSize, prevOffset]; omega)

theorem Touches.setNext (ha : a ∈ w) : Touches w h (h.setNext a v) :=
  .write ha (by omega) (by simp only [headerSize, nextOffset]; omega)

end

/-- The heap spells the blocks `l`, which cover it. -/
structure Shows (h : Heap) (l : List Block) : Prop where
  linked : Linked h.mem 0 l 0
  first : h.heapFirst = headAddr l 0
  last : h.heapLast = lastAddr 0 l
  tiles : Tiles Block.addr Block.stop heapBase l h.heapEnd
  bound : h.heapEnd < 2 ^ 64

section
variable {h h' : Heap} {l l₁ l₂ mid mid' : List Block} {b : Block} {w : List ℕ} {s e before : ℕ}

theorem headAddr_of_tiles {after : ℕ} (ht : Tiles Block.addr Block.stop s l e) (hl : l ≠ []) :
    headAddr l after = s := by
  cases l with
  | nil => exact absurd rfl hl
  | cons b l => exact ht.1

theorem headAddr_lt (ht : Tiles Block.addr Block.stop s l e) (he : e < 2 ^ 64) :
    headAddr l 0 < 2 ^ 64 := by
  cases l with
  | nil => simp [headAddr]
  | cons b l =>
    have hle := ht.le
    have hb : b.addr = s := ht.1
    simp only [headAddr]
    omega

theorem lastAddr_of_ne_nil {before' : ℕ} (hl : l ≠ []) : lastAddr before l = lastAddr before' l := by
  cases l with
  | nil => exact absurd rfl hl
  | cons b l => rfl

/-- A header lies inside its block. -/
theorem headerSize_le_stop (b : Block) : b.addr + headerSize ≤ b.stop := Nat.le_add_right _ _

/-- Blocks behind every touched header stay linked. -/
theorem Linked.of_touches {after : ℕ} (hl : Linked h.mem before l after) (ht : Touches w h h')
    (htiles : Tiles Block.addr Block.stop s l e) (hw : ∀ a ∈ w, a + headerSize ≤ s) :
    Linked h'.mem before l after := by
  refine hl.congr fun c hc x hx _ => ht.mem x fun a ha => .inr ?_
  have hstart := (htiles.bounds hc).1
  have hstop := hw a ha
  omega

/-- A header before every touched one stays. -/
theorem HeaderAt.of_touches {prev next : ℕ} (hb : HeaderAt h.mem b prev next)
    (ht : Touches w h h') (hw : ∀ a ∈ w, b.addr + headerSize ≤ a) :
    HeaderAt h'.mem b prev next := by
  refine hb.congr fun x _ hx => ht.mem x fun a ha => .inl ?_
  have hstop := hw a ha
  omega

/-- The addresses of consecutive blocks. -/
theorem le_of_mem_addr {a : ℕ} (ht : Tiles Block.addr Block.stop s l e)
    (ha : a ∈ l.map Block.addr) : s ≤ a := by
  obtain ⟨c, hc, rfl⟩ := List.mem_map.mp ha
  exact (ht.bounds hc).1

/-- Replacing the blocks from some point on. The headers before it are not touched, and the
last of them still points to the same address. -/
theorem Shows.replace (hs : Shows h (l₁ ++ l₂)) (ht : Touches (l.map Block.addr) h h')
    (hleft : Tiles Block.addr Block.stop heapBase l₁ s)
    (hne : l₂ ≠ []) (hne' : l ≠ []) (hlinked : Linked h'.mem (lastAddr 0 l₁) l 0)
    (htiles : Tiles Block.addr Block.stop s l h'.heapEnd) (hfirst : h'.heapFirst = h.heapFirst)
    (hlast : h'.heapLast = lastAddr 0 l) (hbound : h'.heapEnd < 2 ^ 64) : Shows h' (l₁ ++ l) := by
  obtain ⟨t, hleft', hright⟩ := tiles_append.mp hs.tiles
  obtain rfl := hleft.unique hleft'
  have hhead : headAddr l 0 = headAddr l₂ 0 := by
    rw [headAddr_of_tiles htiles hne', headAddr_of_tiles hright hne]
  refine ⟨linked_append.mpr ⟨?_, hlinked⟩, ?_, ?_, tiles_append.mpr ⟨s, hleft, htiles⟩, hbound⟩
  · rw [hhead]
    refine (linked_append.mp hs.linked).1.congr fun c hc x _ hx => ht.mem x fun a ha => .inl ?_
    have hstop := (hleft.bounds hc).2.2
    have hheader := headerSize_le_stop c
    have hstart := le_of_mem_addr htiles ha
    omega
  · rw [hfirst, hs.first, headAddr_append, headAddr_append, hhead]
  · rw [hlast]
    exact (lastAddr_of_ne_nil hne').trans lastAddr_append.symm

theorem Shows.addr_pos (hs : Shows h l) (hb : b ∈ l) : 0 < b.addr := by
  have hlow := (hs.tiles.bounds hb).1
  simp only [heapBase] at hlow
  omega

theorem Shows.stop_lt (hs : Shows h l) (hb : b ∈ l) : b.stop < 2 ^ 64 :=
  lt_of_le_of_lt (hs.tiles.bounds hb).2.2 hs.bound

/-- The blocks from a given one on. -/
theorem Shows.at (hs : Shows h (l₁ ++ l)) : ∃ t, Tiles Block.addr Block.stop heapBase l₁ t ∧
    Tiles Block.addr Block.stop t l h.heapEnd ∧ Linked h.mem (lastAddr 0 l₁) l 0 := by
  obtain ⟨t, hleft, hright⟩ := tiles_append.mp hs.tiles
  exact ⟨t, hleft, hright, (linked_append.mp hs.linked).2⟩

/-- The last block after the blocks before `l` were replaced: the last of `l`, if there is one. -/
theorem last_of_tail {v x : ℕ} (hlast : h.heapLast = lastAddr x l) :
    (if l = [] then v else h.heapLast) = lastAddr v l := by
  by_cases hl : l = []
  · rw [if_pos hl, hl]
    rfl
  · rw [if_neg hl, hlast]
    exact lastAddr_of_ne_nil hl

/-- `block_merge_next` does nothing before a used block or at the end. -/
theorem blockMergeNext_of_used (hs : Shows h (l₁ ++ b :: l₂))
    (hl : ∀ n ∈ l₂.head?, n.free = false) : blockMergeNext h b.addr = h := by
  obtain ⟨t, -, -, hb, hrest⟩ := hs.at
  rw [blockMergeNext, if_pos]
  cases l₂ with
  | nil => exact .inl hb.next_eq
  | cons n l₃ =>
    obtain ⟨hn, -⟩ := hrest
    right
    rw [hb.next_eq]
    exact hn.free_iff.mpr (hl n rfl)

/-- How the code points the block at `x` back to `p`; when there is none, `p` is the last. -/
def relink (h : Heap) (x p : ℕ) : Heap := if x ≠ 0 then h.setPrev x p else h.setLast p

theorem relink_linked {q p : ℕ} (hl : Linked h.mem q l 0) (ht : Tiles Block.addr Block.stop s l e)
    (hs : 0 < s) (hp : p < 2 ^ 64) : Linked (relink h (headAddr l 0) p).mem p l 0 ∧
      Touches (l.map Block.addr) h (relink h (headAddr l 0) p) ∧
      ((relink h (headAddr l 0) p).heapLast = if l = [] then p else h.heapLast) := by
  cases l with
  | nil => exact ⟨trivial, .setLast, rfl⟩
  | cons c l =>
    obtain ⟨hc, hl⟩ := hl
    obtain ⟨hcs, -, htl⟩ := ht
    have hne : c.addr ≠ 0 := by omega
    have hrelink : relink h (headAddr (c :: l) 0) p = h.setPrev c.addr p := if_pos hne
    rw [hrelink]
    refine ⟨⟨hc.setPrev hp, hl.congr fun d hd x hx _ => store_of_outside (.inr ?_)⟩,
      .setPrev (by simp), rfl⟩
    have hstart := (htl.bounds hd).1
    have hheader := headerSize_le_stop c
    simp only [headerSize, prevOffset] at hheader ⊢
    omega

theorem relink_fields (h : Heap) (x p : ℕ) : (relink h x p).heapFirst = h.heapFirst ∧
    (relink h x p).heapEnd = h.heapEnd := by
  unfold relink
  split <;> exact ⟨rfl, rfl⟩

/-- The block with the next one merged into it. -/
def Block.absorb (b n : Block) : Block := { b with size := b.size + headerSize + n.size }

theorem Block.absorb_stop {n : Block} (hn : n.addr = b.stop) : (b.absorb n).stop = n.stop := by
  simp only [Block.absorb, Block.stop] at hn ⊢
  omega

/-- The stores of `block_merge_next`: the size, the next pointer, the link back. -/
theorem blockMergeNext_eq {block next v after : ℕ} (hnext : h.next block = next) (hne : next ≠ 0)
    (hfree : h.free next ≠ 0)
    (hv : wrap64 (h.size block + wrap64 (headerSize + h.size next)) = v)
    (h₁ : (h.setSize block v).next next = after)
    (h₂ : ((h.setSize block v).setNext block after).next next = after) :
    blockMergeNext h block = relink ((h.setSize block v).setNext block after) after block := by
  have hgo : ¬ (next = 0 ∨ h.free next = 0) := by simp [hne, hfree]
  simp only [blockMergeNext, hnext, hgo, ↓reduceIte, hv, h₁, h₂, relink]

/-- `block_merge_next` before a free block. -/
theorem blockMergeNext_free {n : Block} (hs : Shows h (l₁ ++ b :: n :: l₂)) (hn : n.free = true) :
    Shows (blockMergeNext h b.addr) (l₁ ++ b.absorb n :: l₂) ∧
      Touches ((b :: l₂).map Block.addr) h (blockMergeNext h b.addr) ∧
      (blockMergeNext h b.addr).heapEnd = h.heapEnd := by
  obtain ⟨t, hleft, ⟨rfl, hb', hnb, hn', htl⟩, hB, hN, hL⟩ := hs.at
  have hnpos : 0 < n.addr := hs.addr_pos (by simp)
  have hstop : n.stop < 2 ^ 64 := hs.stop_lt (by simp)
  have hbstop := headerSize_le_stop b
  have hnstop := headerSize_le_stop n
  have hvlt : (b.absorb n).size < 2 ^ 64 := by
    simp only [Block.stop, Block.absorb] at hnb hstop ⊢
    omega
  have hsize : wrap64 (h.size b.addr + wrap64 (headerSize + h.size n.addr)) =
      (b.absorb n).size := by
    simp only [Block.absorb] at hvlt ⊢
    rw [hB.size_eq, hN.size_eq, wrap64_of_lt (n := headerSize + n.size) (by omega),
      wrap64_of_lt (by omega)]
    omega
  have hafter : headAddr l₂ 0 < 2 ^ 64 := headAddr_lt htl hs.bound
  have htouch : Touches [b.addr] h
      ((h.setSize b.addr (b.absorb n).size).setNext b.addr (headAddr l₂ 0)) :=
    (Touches.setSize (by simp)).trans (.setNext (by simp))
  have hB₂ := (hB.setSize hvlt).setNext hafter
  have hN₁ : HeaderAt (h.setSize b.addr (b.absorb n).size).mem n b.addr (headAddr l₂ 0) :=
    hN.write (.inl (by simp only [headerSize] at hbstop; omega))
  have hN₂ : HeaderAt ((h.setSize b.addr (b.absorb n).size).setNext b.addr (headAddr l₂ 0)).mem n
      b.addr (headAddr l₂ 0) :=
    hN₁.write (.inl (by simp only [headerSize, nextOffset] at hbstop ⊢; omega))
  have hL₂ : Linked ((h.setSize b.addr (b.absorb n).size).setNext b.addr (headAddr l₂ 0)).mem
      n.addr l₂ 0 :=
    hL.of_touches htouch htl fun a ha => by
      rw [List.mem_singleton.mp ha]
      omega
  have hfree : h.free n.addr ≠ 0 := fun h0 => by simp [hN.free_iff.mp h0] at hn
  have hmerge := blockMergeNext_eq hB.next_eq hnpos.ne' hfree hsize hN₁.next_eq hN₂.next_eq
  have hblt : b.addr < 2 ^ 64 := by omega
  obtain ⟨hL₃, htouch', hlast⟩ := relink_linked hL₂ htl (by omega) hblt
  obtain ⟨hfirst, hend⟩ := relink_fields
    ((h.setSize b.addr (b.absorb n).size).setNext b.addr (headAddr l₂ 0)) (headAddr l₂ 0) b.addr
  rw [← hmerge] at hL₃ htouch' hlast hfirst hend
  have hend' : (blockMergeNext h b.addr).heapEnd = h.heapEnd := hend
  have htouches : Touches ((b :: l₂).map Block.addr) h (blockMergeNext h b.addr) :=
    (htouch.mono (by simp)).trans (htouch'.mono fun a ha => List.mem_cons_of_mem _ ha)
  have hB₃ : HeaderAt (blockMergeNext h b.addr).mem (b.absorb n) (lastAddr 0 l₁)
      (headAddr l₂ 0) :=
    HeaderAt.of_touches hB₂ htouch' fun a ha => by
      have hstart := le_of_mem_addr htl ha
      change b.addr + headerSize ≤ a
      omega
  have hlast' := hlast.trans (last_of_tail (x := n.addr) (hs.last.trans lastAddr_append))
  refine ⟨hs.replace htouches hleft (by simp) (by simp) ⟨hB₃, hL₃⟩ ?_ hfirst hlast' ?_, htouches,
    hend'⟩
  · rw [hend', tiles_cons, Block.absorb_stop hnb]
    exact ⟨rfl, hb'.trans (hnb ▸ hn'), htl⟩
  · rw [hend']
    exact hs.bound

/-- Changing the free flag of one block. -/
theorem Shows.setFree {v : ℕ} (hs : Shows h (l₁ ++ b :: l₂)) (hv : v < 256) :
    Shows (h.setFree b.addr v) (l₁ ++ { b with free := decide (v ≠ 0) } :: l₂) := by
  obtain ⟨t, hleft, ⟨rfl, hb, htl⟩, hB, hL⟩ := hs.at
  have htouch : Touches [b.addr] h (h.setFree b.addr v) := .setFree (by simp)
  refine hs.replace (htouch.mono (by simp)) hleft (by simp) (by simp) ⟨hB.setFree hv, ?_⟩
    ⟨rfl, hb, htl⟩ rfl ?_ hs.bound
  · refine hL.of_touches htouch htl fun a ha => ?_
    rw [List.mem_singleton.mp ha]
    exact headerSize_le_stop b
  · change h.heapLast = _
    rw [hs.last]
    simp [lastAddr]

/-! ### Splitting -/

/-- The stores of `block_insert_after`. -/
theorem blockInsertAfter_eq {block next after : ℕ} (h₁ : (h.setPrev next block).next block = after)
    (h₂ : ((h.setPrev next block).setNext next after).next block = after) :
    blockInsertAfter h block next =
      (relink ((h.setPrev next block).setNext next after) after next).setNext block next := by
  simp only [blockInsertAfter, h₁, h₂, relink]

/-- Linking the block `c`, which begins where `b` ends, behind `b`. -/
theorem blockInsertAfter_linked {c : Block} {p x y : ℕ}
    (hB : HeaderAt h.mem b p (headAddr l 0)) (hC : HeaderAt h.mem c x y)
    (hL : Linked h.mem b.addr l 0) (hbc : c.addr = b.stop) (hpos : 0 < b.addr)
    (htl : Tiles Block.addr Block.stop c.stop l e) (he : e < 2 ^ 64) :
    Linked (blockInsertAfter h b.addr c.addr).mem p (b :: c :: l) 0 ∧
      Touches ((b :: c :: l).map Block.addr) h (blockInsertAfter h b.addr c.addr) ∧
      (blockInsertAfter h b.addr c.addr).heapLast = (if l = [] then c.addr else h.heapLast) ∧
      (blockInsertAfter h b.addr c.addr).heapFirst = h.heapFirst ∧
      (blockInsertAfter h b.addr c.addr).heapEnd = h.heapEnd := by
  have hbstop := headerSize_le_stop b
  have hcstop := headerSize_le_stop c
  have hle := htl.le
  have hafter : headAddr l 0 < 2 ^ 64 := headAddr_lt htl he
  have htouch : Touches [c.addr] h ((h.setPrev c.addr b.addr).setNext c.addr (headAddr l 0)) :=
    (Touches.setPrev (by simp)).trans (.setNext (by simp))
  have hB₁ : HeaderAt (h.setPrev c.addr b.addr).mem b p (headAddr l 0) :=
    hB.write (.inr (by simp only [headerSize, prevOffset] at hbstop ⊢; omega))
  have hB₂ : HeaderAt ((h.setPrev c.addr b.addr).setNext c.addr (headAddr l 0)).mem b p
      (headAddr l 0) :=
    hB₁.write (.inr (by simp only [headerSize, nextOffset] at hbstop ⊢; omega))
  have hC₂ := (hC.setPrev (v := b.addr) (by omega)).setNext hafter
  have hL₂ : Linked ((h.setPrev c.addr b.addr).setNext c.addr (headAddr l 0)).mem b.addr l 0 :=
    hL.of_touches htouch htl fun a ha => by rwa [List.mem_singleton.mp ha]
  obtain ⟨hL₃, htouch', hlast⟩ := relink_linked (p := c.addr) hL₂ htl (by omega) (by omega)
  obtain ⟨hfirst, hend⟩ := relink_fields
    ((h.setPrev c.addr b.addr).setNext c.addr (headAddr l 0)) (headAddr l 0) c.addr
  have hins := blockInsertAfter_eq hB₁.next_eq hB₂.next_eq
  -- The blocks behind `c` begin behind both headers.
  have hright (a : ℕ) (ha : a ∈ l.map Block.addr) : c.addr + headerSize ≤ a :=
    hcstop.trans (le_of_mem_addr htl ha)
  have hB₃ := hB₂.of_touches htouch' fun a ha => by
    have hbehind := hright a ha
    omega
  have hC₃ := HeaderAt.of_touches hC₂ htouch' hright
  rw [hins]
  refine ⟨⟨hB₃.setNext (by omega), hC₃.write (.inl ?_), hL₃.congr fun d hd x hx _ => ?_⟩, ?_,
    hlast, hfirst, hend⟩
  · simp only [headerSize, nextOffset] at hbstop ⊢
    omega
  · have hstart := (htl.bounds hd).1
    refine store_of_outside (.inr ?_)
    simp only [headerSize, nextOffset] at hbstop ⊢
    omega
  · refine (htouch.mono (by simp)).trans ((htouch'.mono fun a ha => ?_).trans (.setNext (by simp)))
    exact List.mem_cons_of_mem _ (List.mem_cons_of_mem _ ha)

/-- The two parts of a split block. -/
def Block.front (b : Block) (size : ℕ) : Block := { b with size := size }
def Block.rest (b : Block) (size : ℕ) : Block :=
  ⟨b.addr + headerSize + size, b.size - size - headerSize, true⟩

theorem blockSplit_of_small {size : ℕ} (hs : Shows h (l₁ ++ b :: l₂))
    (hb : b.size < size + headerSize + heapAlignment)
    (hsize : size + headerSize + heapAlignment < 2 ^ 64) : blockSplit h b.addr size = h := by
  obtain ⟨t, -, -, hB, -⟩ := hs.at
  rw [blockSplit, if_pos]
  rwa [hB.size_eq, wrap64_of_lt (n := size + headerSize) (by omega), wrap64_of_lt hsize]

/-- Whatever lies in memory can be read as a header. -/
theorem headerAt_self (m : Mem) (a : ℕ) :
    HeaderAt m ⟨a, load m a 8, decide (load m (a + freeOffset) 1 ≠ 0)⟩
      (load m (a + prevOffset) 8) (load m (a + nextOffset) 8) :=
  ⟨rfl, by simp, rfl, rfl⟩

theorem blockSplit_of_large {size : ℕ} (hs : Shows h (l₁ ++ b :: l₂))
    (hb : size + headerSize + heapAlignment ≤ b.size) :
    Shows (blockSplit h b.addr size) (l₁ ++ b.front size :: b.rest size :: l₂) ∧
      Touches ((b.front size :: b.rest size :: l₂).map Block.addr) h (blockSplit h b.addr size) ∧
      (blockSplit h b.addr size).heapEnd = h.heapEnd := by
  obtain ⟨t, hleft, ⟨rfl, hb', htl⟩, hB, hL⟩ := hs.at
  have hpos : 0 < b.addr := hs.addr_pos (by simp)
  have hstop : b.stop < 2 ^ 64 := hs.stop_lt (by simp)
  have hfront := headerSize_le_stop (b.front size)
  have hrest : (b.rest size).stop = b.stop := by
    simp only [Block.rest, Block.stop]
    omega
  have hbsize : b.size < 2 ^ 64 := by
    simp only [Block.stop] at hstop
    omega
  have hgo : ¬ h.size b.addr < wrap64 (wrap64 (size + headerSize) + heapAlignment) := by
    rw [hB.size_eq, wrap64_of_lt (n := size + headerSize) (by omega), wrap64_of_lt (by omega)]
    omega
  have hsub : sub64 (sub64 (h.size b.addr) size) headerSize = (b.rest size).size := by
    rw [hB.size_eq, sub64_of_le (by omega) hbsize, sub64_of_le (by omega) (by omega)]
    rfl
  -- The two sizes and the flag of the new header, before it is linked.
  set h₃ := ((h.setSize (b.rest size).addr (b.rest size).size).setFree (b.rest size).addr
    1).setSize b.addr size with hh₃
  have hnext : wrap64 (b.addr + headerSize + size) = (b.rest size).addr :=
    wrap64_of_lt (by simp only [Block.stop] at hstop; omega)
  have hsplit : blockSplit h b.addr size = blockInsertAfter h₃ b.addr (b.rest size).addr := by
    rw [blockSplit, if_neg hgo, hsub, hnext]
  have hadj : (b.rest size).addr = (b.front size).stop := rfl
  have hbetween : (b.rest size).addr + headerSize ≤ b.stop := hrest ▸ headerSize_le_stop _
  have hN₂ := ((headerAt_self h.mem (b.rest size).addr).setSize (v := (b.rest size).size)
    (by simp only [Block.rest]; omega)).setFree (v := 1) (by decide)
  have hN₃ : HeaderAt h₃.mem (b.rest size) _ _ := hN₂.write (.inl (by
    simp only [Block.front, headerSize] at hfront hadj ⊢; omega))
  have hB₁ : HeaderAt (h.setSize (b.rest size).addr (b.rest size).size).mem b (lastAddr 0 l₁)
      (headAddr l₂ 0) := hB.write (.inr (by simp only [Block.rest]; omega))
  have hB₂ : HeaderAt ((h.setSize (b.rest size).addr (b.rest size).size).setFree
      (b.rest size).addr 1).mem b (lastAddr 0 l₁) (headAddr l₂ 0) :=
    hB₁.write (.inr (by simp only [Block.rest]; omega))
  have hB₃ : HeaderAt h₃.mem (b.front size) (lastAddr 0 l₁) (headAddr l₂ 0) :=
    hB₂.setSize (by omega)
  have htouch : Touches [(b.front size).addr, (b.rest size).addr] h h₃ :=
    ((Touches.setSize (by simp)).trans (.setFree (by simp))).trans
      (.setSize (a := (b.front size).addr) (by simp))
  have hL₃ : Linked h₃.mem (b.front size).addr l₂ 0 := by
    refine hL.of_touches htouch htl fun a ha => ?_
    rcases List.mem_cons.mp ha with rfl | ha
    · simp only [Block.front] at hfront hadj ⊢
      omega
    · rw [List.mem_singleton.mp ha]
      omega
  obtain ⟨hlinked, htouch', hlast, hfirst, hend⟩ :=
    blockInsertAfter_linked hB₃ hN₃ hL₃ hadj hpos (hrest.symm ▸ htl) hs.bound
  have haddr : (b.front size).addr = b.addr := rfl
  rw [haddr, ← hsplit] at hlinked htouch' hlast hfirst hend
  have htouches : Touches ((b.front size :: b.rest size :: l₂).map Block.addr) h
      (blockSplit h b.addr size) := (htouch.mono (by simp +contextual)).trans htouch'
  have hend' : (blockSplit h b.addr size).heapEnd = h.heapEnd := hend
  have hlast' := hlast.trans (last_of_tail (x := b.addr) (hs.last.trans lastAddr_append))
  refine ⟨hs.replace htouches hleft (by simp) (by simp) hlinked ?_ hfirst hlast' ?_, htouches,
    hend'⟩
  · rw [hend', tiles_cons, tiles_cons, hrest]
    exact ⟨rfl, by omega, hadj, by omega, htl⟩
  · rw [hend']
    exact hs.bound

/-! ### Merging with the block before, and extension -/

/-- `kfree` of a payload frees the block and merges it with its neighbours. -/
theorem kfree_payload (h : Heap) (addr : ℕ) : kfree h (addr + headerSize) =
    mergePrev (blockMergeNext (h.setFree addr 1) addr) addr := by
  rw [kfree, if_neg (by simp [headerSize]), Nat.add_sub_cancel]

theorem mergePrev_of_used (hs : Shows h (l₁ ++ b :: l₂))
    (hl : ∀ z ∈ l₁.getLast?, z.free = false) : mergePrev h b.addr = h := by
  obtain ⟨t, hleft, -, hB, -⟩ := hs.at
  rw [mergePrev, if_neg]
  rintro ⟨hne, hfree⟩
  rw [hB.prev_eq] at hne hfree
  rcases l₁.eq_nil_or_concat' with rfl | ⟨l₀, z, rfl⟩
  · exact hne rfl
  · obtain ⟨-, hZ, -⟩ := linked_append.mp (linked_append.mp hs.linked).1
    simp only [lastAddr_append, lastAddr] at hfree
    exact hfree (hZ.free_iff.mpr (hl z (by simp)))

theorem mergePrev_of_free {z : Block} (hs : Shows h (l₁ ++ z :: b :: l₂)) (hz : z.free = true)
    (hb : b.free = true) : Shows (mergePrev h b.addr) (l₁ ++ z.absorb b :: l₂) ∧
      Touches ((z :: l₂).map Block.addr) h (mergePrev h b.addr) ∧
      (mergePrev h b.addr).heapEnd = h.heapEnd := by
  obtain ⟨t, -, -, hZ, hB, -⟩ := hs.at
  have hpos : 0 < z.addr := hs.addr_pos (by simp)
  have hmerge : mergePrev h b.addr = blockMergeNext h z.addr := by
    rw [mergePrev, hB.prev_eq, if_pos]
    exact ⟨hpos.ne', fun h0 => by simp [hZ.free_iff.mp h0] at hz⟩
  rw [hmerge]
  exact blockMergeNext_free hs hb

/-- The block that an extension adds. -/
def Heap.extension (h : Heap) (bytes : ℕ) : Block := ⟨h.heapEnd, bytes - headerSize, true⟩

/-- The header of the new block, before it is linked. -/
def Heap.openBlock (h : Heap) (block bytes : ℕ) : Heap :=
  ((((h.setEnd (wrap64 (h.heapEnd + bytes))).setSize block (sub64 bytes headerSize)).setFree block
    1).setPrev block h.heapLast).setNext block 0

theorem linkBlock_eq {block bytes : ℕ} : linkBlock h block bytes =
    (if h.heapLast ≠ 0 then (h.openBlock block bytes).setNext h.heapLast block
      else (h.openBlock block bytes).setFirst block).setLast block := rfl

theorem openBlock_headerAt {bytes : ℕ} (hs : Shows h l) (hbytes : headerSize ≤ bytes)
    (hend : h.heapEnd + bytes < 2 ^ 64) : HeaderAt (h.openBlock h.heapEnd bytes).mem
      (h.extension bytes) h.heapLast 0 ∧ Touches [h.heapEnd] h (h.openBlock h.heapEnd bytes) := by
  have hlast : h.heapLast < 2 ^ 64 := by
    rw [hs.last]
    rcases l.eq_nil_or_concat' with rfl | ⟨l₀, z, rfl⟩
    · simp [lastAddr]
    · have hz := hs.stop_lt (b := z) (by simp)
      have hheader := headerSize_le_stop z
      simp only [lastAddr_append, lastAddr]
      omega
  have hsize : sub64 bytes headerSize = bytes - headerSize := sub64_of_le hbytes (by omega)
  unfold Heap.openBlock
  rw [hsize]
  constructor
  · exact (((((headerAt_self h.mem h.heapEnd).setSize (h := h.setEnd _) (by omega)).setFree
      (by decide)).setPrev hlast).setNext (by decide))
  · exact (((Touches.setEnd.trans (.setSize (by simp))).trans (.setFree (by simp))).trans
      (.setPrev (by simp))).trans (.setNext (by simp))

theorem linkBlock_shows {bytes : ℕ} (hs : Shows h l) (hbytes : headerSize ≤ bytes)
    (hend : h.heapEnd + bytes < 2 ^ 64) :
    Shows (linkBlock h h.heapEnd bytes) (l ++ [h.extension bytes]) ∧
      Touches ((l ++ [h.extension bytes]).map Block.addr) h (linkBlock h h.heapEnd bytes) ∧
      (linkBlock h h.heapEnd bytes).heapEnd = h.heapEnd + bytes := by
  obtain ⟨hE, htouch⟩ := openBlock_headerAt hs hbytes hend
  have hstop : (h.extension bytes).stop = h.heapEnd + bytes := by
    simp only [Heap.extension, Block.stop]
    omega
  have hend' : (h.openBlock h.heapEnd bytes).heapEnd = h.heapEnd + bytes := wrap64_of_lt hend
  have htiles : Tiles Block.addr Block.stop h.heapEnd [h.extension bytes] (h.heapEnd + bytes) :=
    ⟨rfl, by rw [hstop]; exact Nat.le_add_right _ _, hstop⟩
  rcases l.eq_nil_or_concat' with rfl | ⟨l₁, z, rfl⟩
  · have hlast : h.heapLast = 0 := hs.last
    have hbase : heapBase = h.heapEnd := hs.tiles
    rw [hlast] at hE
    rw [linkBlock_eq, hlast, if_neg (by simp)]
    refine ⟨⟨⟨hE, trivial⟩, rfl, rfl, ?_, ?_⟩, (htouch.trans .setFirst).trans .setLast, hend'⟩
    · change Tiles _ _ _ _ (h.openBlock h.heapEnd bytes).heapEnd
      rw [hend', hbase]
      exact htiles
    · change (h.openBlock h.heapEnd bytes).heapEnd < _
      rwa [hend']
  · obtain ⟨t, hleft, ⟨rfl, hz, hze⟩, hZ, -⟩ := hs.at
    change z.stop = h.heapEnd at hze
    have hpos : 0 < z.addr := hs.addr_pos (by simp)
    have hlast : h.heapLast = z.addr := by rw [hs.last]; simp [lastAddr]
    have hheader := headerSize_le_stop z
    rw [hlast] at hE
    have hZ₁ : HeaderAt (h.openBlock h.heapEnd bytes).mem z (lastAddr 0 l₁) 0 :=
      hZ.of_touches htouch fun a ha => by
        rw [List.mem_singleton.mp ha]
        omega
    have htouch' : Touches [z.addr, h.heapEnd] h
        (((h.openBlock h.heapEnd bytes).setNext z.addr h.heapEnd).setLast h.heapEnd) :=
      ((htouch.mono (by simp)).trans (.setNext (by simp))).trans .setLast
    rw [linkBlock_eq, hlast, if_pos hpos.ne']
    refine ⟨?_, htouch'.mono (by simp [Heap.extension]), hend'⟩
    rw [List.append_assoc]
    refine hs.replace htouch' hleft (by simp) (by simp)
      ⟨hZ₁.setNext (by omega), hE.write (.inl ?_), trivial⟩ ?_ rfl rfl ?_
    · simp only [Heap.extension, headerSize, nextOffset] at hheader ⊢
      omega
    · change Tiles _ _ _ _ (h.openBlock h.heapEnd bytes).heapEnd
      rw [hend']
      exact ⟨rfl, hz, hze.symm ▸ htiles⟩
    · change (h.openBlock h.heapEnd bytes).heapEnd < _
      rwa [hend']

/-! ### Search -/

/-- A block that can serve a request. -/
def Block.fits (b : Block) (size : ℕ) : Bool := b.free && decide (size ≤ b.size)

theorem findLoop_eq {size n p : ℕ} (hl : Linked h.mem p l 0) (hpos : ∀ b ∈ l, 0 < b.addr)
    (hn : l.length ≤ n) : findLoop h size n (headAddr l 0) =
      .ok ((l.find? fun b => b.fits size).elim 0 Block.addr) := by
  induction l generalizing n p with
  | nil => cases n <;> rfl
  | cons b l ih =>
    obtain ⟨hb, hl⟩ := hl
    have hne : b.addr ≠ 0 := (hpos b (by simp)).ne'
    cases n with
    | zero => simp at hn
    | succ n =>
      have htail := ih (n := n) hl (fun c hc => hpos c (by simp [hc])) (by simpa using hn)
      have hfree : h.free b.addr ≠ 0 ↔ b.free = true := hb.free
      change findLoop h size (n + 1) b.addr = _
      rw [findLoop, if_neg hne, hb.size_eq, hb.next_eq, htail, List.find?_cons]
      by_cases hfit : b.free = true ∧ size ≤ b.size
      · have hb' : b.fits size = true := by simpa [Block.fits] using hfit
        rw [if_pos ⟨hfree.mpr hfit.1, hfit.2⟩, hb']
        rfl
      · have hb' : b.fits size = false := by simpa [Block.fits] using hfit
        rw [if_neg fun he => hfit ⟨hfree.mp he.1, he.2⟩, hb']

theorem findFreeBlock_eq (size : ℕ) (hs : Shows h l) : findFreeBlock h size =
    .ok ((l.find? fun b => b.fits size).elim 0 Block.addr) := by
  rw [findFreeBlock, hs.first]
  refine findLoop_eq hs.linked (fun b hb => hs.addr_pos hb)
    ((hs.tiles.length_le fun b _ => ?_).trans ((Nat.sub_le _ _).trans hs.bound.le))
  have hheader := headerSize_le_stop b
  simp only [headerSize] at hheader
  omega

end

end Tianole.Mm
