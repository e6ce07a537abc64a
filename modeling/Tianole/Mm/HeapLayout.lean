import Mathlib.Data.List.Chain
import Mathlib.Tactic.Ring
import Tianole.Mm.HeapBlocks

/-! `kmalloc` and `kfree` keep the layout of the heap: block sizes, coalescing, mapped pages,
and every block in use. -/
namespace Tianole.Mm
open Memory Word Tiling

/-- Sizes are positive multiples of the alignment, and free blocks are coalesced. -/
structure Layout (l : List Block) : Prop where
  size : ∀ b ∈ l, 0 < b.size ∧ heapAlignment ∣ b.size
  coalesced : l.IsChain fun b c => ¬ (b.free = true ∧ c.free = true)

/-- No field that was written between `h` and `h'` lies in the payload of `c`. -/
def Spares (c : Block) (h h' : Heap) : Prop :=
  ∃ new, h'.written = new ++ h.written ∧
    ∀ r ∈ new, r.1 + r.2 ≤ c.addr + headerSize ∨ c.stop ≤ r.1

/-- An operation that keeps the blocks in `P`, and writes to no payload of theirs. -/
structure Keeps (P : Block → Prop) (h : Heap) (l : List Block) (h' : Heap) (l' : List Block) :
    Prop where
  shows : Shows h' l'
  kept : ∀ c ∈ l, P c → c ∈ l' ∧ Spares c h h'
  mapped : h'.mapped = h.mapped
  heapEnd : h'.heapEnd = h.heapEnd

/-- Every field that was written between `h` and `h'` lies in the heap. -/
def WritesInHeap (h h' : Heap) : Prop :=
  ∃ new, h'.written = new ++ h.written ∧ ∀ r ∈ new, heapBase ≤ r.1 ∧ r.1 + r.2 ≤ h'.heapEnd

section
variable {P : Block → Prop} {h h₁ h₂ : Heap} {l l₁ l₂ l' l'' : List Block} {b c : Block} {w : List ℕ}

theorem WritesInHeap.of_eq (hw : h₁.written = h.written) : WritesInHeap h h₁ := ⟨[], hw, by simp⟩

theorem WritesInHeap.trans (hw : WritesInHeap h h₁) (hw' : WritesInHeap h₁ h₂)
    (hend : h₁.heapEnd ≤ h₂.heapEnd) : WritesInHeap h h₂ := by
  obtain ⟨new₁, he₁, hin₁⟩ := hw
  obtain ⟨new₂, he₂, hin₂⟩ := hw'
  refine ⟨new₂ ++ new₁, by rw [he₂, he₁, List.append_assoc], fun r hr => ?_⟩
  rcases List.mem_append.mp hr with hr | hr
  · exact hin₂ r hr
  · exact ⟨(hin₁ r hr).1, (hin₁ r hr).2.trans hend⟩

/-- Headers of blocks lie in the heap. -/
theorem Touches.inHeap (ht : Touches w h h₁) (hs : Shows h₁ l)
    (hw : ∀ a ∈ w, ∃ b ∈ l, b.addr = a) : WritesInHeap h h₁ := by
  obtain ⟨new, he, hin⟩ := ht.written
  refine ⟨new, he, fun r hr => ?_⟩
  obtain ⟨a, ha, hlow, hhigh⟩ := hin r hr
  obtain ⟨b, hb, rfl⟩ := hw a ha
  have hbounds := hs.tiles.bounds hb
  have hheader := headerSize_le_stop b
  omega

theorem Spares.refl (c : Block) (h : Heap) : Spares c h h := ⟨[], rfl, by simp⟩

theorem Spares.trans (hs : Spares c h h₁) (hs' : Spares c h₁ h₂) : Spares c h h₂ := by
  obtain ⟨new₁, he₁, hw₁⟩ := hs
  obtain ⟨new₂, he₂, hw₂⟩ := hs'
  refine ⟨new₂ ++ new₁, by rw [he₂, he₁, List.append_assoc], fun r hr => ?_⟩
  rcases List.mem_append.mp hr with hr | hr
  · exact hw₂ r hr
  · exact hw₁ r hr

/-- Headers of other blocks lie outside a block's payload. -/
theorem header_outside {s e : ℕ} (ht : Tiles Block.addr Block.stop s l e) (hb : b ∈ l)
    (hc : c ∈ l) : b.addr ≤ c.addr ∨ c.stop ≤ b.addr := by
  induction l generalizing s with
  | nil => cases hb
  | cons d l ih =>
    obtain ⟨-, hd, htl⟩ := ht
    rcases List.mem_cons.mp hb with rfl | hb' <;> rcases List.mem_cons.mp hc with rfl | hc'
    · exact .inl le_rfl
    · have hstart := (htl.bounds hc').1
      omega
    · exact .inr (htl.bounds hb').1
    · exact ih htl hb' hc'

theorem Touches.spares (ht : Touches w h h₁) (hs : Shows h₁ l)
    (hw : ∀ a ∈ w, ∃ b ∈ l, b.addr = a) (hc : c ∈ l) : Spares c h h₁ := by
  obtain ⟨new, he, hin⟩ := ht.written
  refine ⟨new, he, fun r hr => ?_⟩
  obtain ⟨a, ha, hlow, hhigh⟩ := hin r hr
  obtain ⟨b, hb, rfl⟩ := hw a ha
  rcases header_outside hs.tiles hb hc with hle | hle
  · left
    omega
  · right
    omega

theorem Keeps.refl (hs : Shows h l) : Keeps P h l h l :=
  ⟨hs, fun c hc _ => ⟨hc, .refl c h⟩, rfl, rfl⟩

theorem Keeps.trans (hk : Keeps P h l h₁ l') (hk' : Keeps P h₁ l' h₂ l'') : Keeps P h l h₂ l'' := by
  refine ⟨hk'.shows, fun c hc hP => ?_, hk'.mapped.trans hk.mapped, hk'.heapEnd.trans hk.heapEnd⟩
  obtain ⟨hc₁, hs₁⟩ := hk.kept c hc hP
  obtain ⟨hc₂, hs₂⟩ := hk'.kept c hc₁ hP
  exact ⟨hc₂, hs₁.trans hs₂⟩

theorem Touches.keeps (ht : Touches w h h₁) (hs : Shows h₁ l')
    (hw : ∀ a ∈ w, ∃ b ∈ l', b.addr = a) (hend : h₁.heapEnd = h.heapEnd)
    (hP : ∀ c ∈ l, P c → c ∈ l') : Keeps P h l h₁ l' :=
  ⟨hs, fun c hc hPc => ⟨hP c hc hPc, ht.spares hs hw (hP c hc hPc)⟩, ht.mapped, hend⟩

/-- A layout, taken apart at one block. -/
theorem layout_iff : Layout (l₁ ++ b :: l₂) ↔ Layout l₁ ∧ Layout l₂ ∧
    (0 < b.size ∧ heapAlignment ∣ b.size) ∧
    (∀ z ∈ l₁.getLast?, ¬ (z.free = true ∧ b.free = true)) ∧
    ∀ y ∈ l₂.head?, ¬ (b.free = true ∧ y.free = true) := by
  constructor
  · intro h
    obtain ⟨hl, hr, hz⟩ := List.isChain_append.mp h.coalesced
    obtain ⟨hy, hr⟩ := List.isChain_cons.mp hr
    exact ⟨⟨fun c hc => h.size c (by simp [hc]), hl⟩, ⟨fun c hc => h.size c (by simp [hc]), hr⟩,
      h.size b (by simp), fun z hz' => hz z hz' b rfl, hy⟩
  · rintro ⟨hl, hr, hb, hz, hy⟩
    refine ⟨fun c hc => ?_, List.isChain_append.mpr ⟨hl.coalesced,
      List.isChain_cons.mpr ⟨hy, hr.coalesced⟩, fun z hz' c hc => ?_⟩⟩
    · rcases List.mem_append.mp hc with hc | hc
      · exact hl.size c hc
      · rcases List.mem_cons.mp hc with rfl | hc
        · exact hb
        · exact hr.size c hc
    · obtain rfl : b = c := by simpa using hc
      exact hz z hz'

theorem absorb_size {n : Block} (hb : 0 < b.size ∧ heapAlignment ∣ b.size)
    (hn : 0 < n.size ∧ heapAlignment ∣ n.size) :
    0 < (b.absorb n).size ∧ heapAlignment ∣ (b.absorb n).size := by
  simp only [Block.absorb, heapAlignment, headerSize] at *
  omega

/-! ### Merging -/

/-- `block_merge_next` on a free block leaves a used block, or none, behind it. -/
theorem blockMergeNext_layout (hs : Shows h (l₁ ++ b :: l₂)) (hb : b.free = true)
    (hsize : 0 < b.size ∧ heapAlignment ∣ b.size) (hl : Layout l₂)
    (hP : ∀ c, P c → c.free = false) : ∃ b' l', b'.addr = b.addr ∧ b'.free = true ∧
      (0 < b'.size ∧ heapAlignment ∣ b'.size) ∧ Layout l' ∧ (∀ y ∈ l'.head?, y.free = false) ∧
      Keeps P h (l₁ ++ b :: l₂) (blockMergeNext h b.addr) (l₁ ++ b' :: l') := by
  cases l₂ with
  | nil =>
    refine ⟨b, [], rfl, hb, hsize, hl, by simp, ?_⟩
    rw [blockMergeNext_of_used hs (by simp)]
    exact .refl hs
  | cons n l₃ =>
    have hn : Layout ([] ++ n :: l₃) := hl
    obtain ⟨-, hl₃, hnsize, -, hy⟩ := layout_iff.mp hn
    cases hfree : n.free with
    | false =>
      refine ⟨b, n :: l₃, rfl, hb, hsize, hl, by simpa using hfree, ?_⟩
      rw [blockMergeNext_of_used hs (by simpa using hfree)]
      exact .refl hs
    | true =>
      obtain ⟨hs', ht, hend⟩ := blockMergeNext_free hs hfree
      refine ⟨b.absorb n, l₃, rfl, hb, absorb_size hsize hnsize, hl₃, fun y hy' => ?_,
        ht.keeps hs' (fun a ha => ?_) hend fun c hc hPc => ?_⟩
      · have hnot := hy y hy'
        simpa [hfree] using hnot
      · obtain ⟨c, hc, rfl⟩ := List.mem_map.mp ha
        rcases List.mem_cons.mp hc with rfl | hc
        · exact ⟨c.absorb n, by simp, rfl⟩
        · exact ⟨c, by simp [hc], rfl⟩
      · -- The merged blocks are free, so they are not among those to keep.
        have hcb : c ≠ b := by rintro rfl; simp [hP c hPc] at hb
        have hcn : c ≠ n := by rintro rfl; simp [hP c hPc] at hfree
        have hc' : c ∈ l₁ ∨ c ∈ l₃ := by simpa [hcb, hcn] using hc
        rcases hc' with hc' | hc' <;> simp [hc']

/-- Merging a free block into the one before restores the layout, and leaves a free block that is
no smaller. -/
theorem mergePrev_layout (hs : Shows h (l₁ ++ b :: l₂)) (hb : b.free = true)
    (hsize : 0 < b.size ∧ heapAlignment ∣ b.size) (hl₁ : Layout l₁) (hl₂ : Layout l₂)
    (hhead : ∀ y ∈ l₂.head?, y.free = false) (hP : ∀ c, P c → c.free = false) :
    ∃ l', Layout l' ∧ Keeps P h (l₁ ++ b :: l₂) (mergePrev h b.addr) l' ∧
      WritesInHeap h (mergePrev h b.addr) ∧ ∃ c ∈ l', c.free = true ∧ b.size ≤ c.size := by
  have hright {x : Block} : ∀ y ∈ l₂.head?, ¬ (x.free = true ∧ y.free = true) :=
    fun y hy hxy => by simp [hhead y hy] at hxy
  by_cases hlast : ∀ z ∈ l₁.getLast?, z.free = false
  · refine ⟨l₁ ++ b :: l₂, layout_iff.mpr ⟨hl₁, hl₂, hsize, fun z hz hzb => ?_, hright⟩, ?_⟩
    · simp [hlast z hz] at hzb
    · rw [mergePrev_of_used hs hlast]
      exact ⟨.refl hs, .of_eq rfl, b, by simp, hb, le_rfl⟩
  · rcases l₁.eq_nil_or_concat' with rfl | ⟨l₀, z, rfl⟩
    · simp at hlast
    · have hz : z.free = true := by simpa using hlast
      obtain ⟨hl₀, -, hzsize, hprev, -⟩ := layout_iff.mp hl₁
      have hs' : Shows h (l₀ ++ z :: b :: l₂) := by simpa using hs
      obtain ⟨hsm, ht, hend⟩ := mergePrev_of_free hs' hz hb
      have hw : ∀ a ∈ (z :: l₂).map Block.addr, ∃ c ∈ l₀ ++ z.absorb b :: l₂, c.addr = a := by
        intro a ha
        obtain ⟨c, hc, rfl⟩ := List.mem_map.mp ha
        rcases List.mem_cons.mp hc with rfl | hc
        · exact ⟨c.absorb b, by simp, rfl⟩
        · exact ⟨c, by simp [hc], rfl⟩
      refine ⟨l₀ ++ z.absorb b :: l₂,
        layout_iff.mpr ⟨hl₀, hl₂, absorb_size hzsize hsize, hprev, hright⟩,
        ht.keeps hsm hw hend fun c hc hPc => ?_, ht.inHeap hsm hw, z.absorb b, by simp, hz, ?_⟩
      · have hcb : c ≠ b := by rintro rfl; simp [hP c hPc] at hb
        have hcz : c ≠ z := by rintro rfl; simp [hP c hPc] at hz
        have hc' : c ∈ l₀ ∨ c ∈ l₂ := by simpa [hcb, hcz] using hc
        rcases hc' with hc' | hc' <;> simp [hc']
      · exact Nat.le_add_left _ _

/-! ### Release -/

/-- `kfree` of a used block keeps all other used blocks. -/
theorem kfree_layout (hs : Shows h (l₁ ++ b :: l₂)) (hl : Layout (l₁ ++ b :: l₂)) :
    ∃ l', Layout l' ∧ Keeps (fun c => c.free = false ∧ c ≠ b) h (l₁ ++ b :: l₂)
      (kfree h (b.addr + headerSize)) l' := by
  obtain ⟨hl₁, hl₂, hsize, -, -⟩ := layout_iff.mp hl
  have hs₁ : Shows (h.setFree b.addr 1) (l₁ ++ { b with free := true } :: l₂) :=
    hs.setFree (by decide)
  have hk₁ : Keeps (fun c => c.free = false ∧ c ≠ b) h (l₁ ++ b :: l₂) (h.setFree b.addr 1)
      (l₁ ++ { b with free := true } :: l₂) := by
    refine (Touches.setFree (w := [b.addr]) (by simp)).keeps hs₁ (fun a ha => ?_) rfl
      fun c hc hPc => ?_
    · exact ⟨{ b with free := true }, by simp, (List.mem_singleton.mp ha).symm⟩
    · have hcb : c ∈ l₁ ∨ c ∈ l₂ := by simpa [hPc.2] using hc
      rcases hcb with hc | hc <;> simp [hc]
  obtain ⟨b', l₃, haddr, hb', hsize', hl₃, hhead, hk₂⟩ :=
    blockMergeNext_layout (P := fun c => c.free = false ∧ c ≠ b) hs₁ rfl hsize hl₂ fun _ h => h.1
  obtain ⟨l', hl', hk₃, -⟩ := mergePrev_layout (P := fun c => c.free = false ∧ c ≠ b) hk₂.shows hb'
    hsize' hl₁ hl₃ hhead fun _ h => h.1
  rw [kfree_payload]
  rw [haddr] at hk₃
  exact ⟨l', hl', (hk₁.trans hk₂).trans hk₃⟩

/-! ### Allocation from a free block -/

/-- Taking a free block that fits, whole or split. -/
theorem takeBlock_layout {size : ℕ} (hs : Shows h (l₁ ++ b :: l₂)) (hl : Layout (l₁ ++ b :: l₂))
    (hb : b.free = true) (hfit : size ≤ b.size) (hsize : 0 < size ∧ heapAlignment ∣ size) :
    (takeBlock h b.addr size).2 = b.addr + headerSize ∧ ∃ b' l', Layout l' ∧ b' ∈ l' ∧
      b'.addr = b.addr ∧ b'.free = false ∧ size ≤ b'.size ∧
      Keeps (fun c => c.free = false) h (l₁ ++ b :: l₂) (takeBlock h b.addr size).1 l' ∧
      WritesInHeap h (takeBlock h b.addr size).1 := by
  obtain ⟨hl₁, hl₂, hbsize, hz, hy⟩ := layout_iff.mp hl
  have hpos : b.addr ≠ 0 := (hs.addr_pos (by simp)).ne'
  have hstop : b.stop < 2 ^ 64 := hs.stop_lt (by simp)
  have hlow := (hs.tiles.bounds (b := b) (by simp)).1
  have htake : takeBlock h b.addr size =
      ((blockSplit h b.addr size).setFree b.addr 0, b.addr + headerSize) := if_neg hpos
  rw [htake]
  refine ⟨rfl, ?_⟩
  have hother {c : Block} (hc : c ∈ l₁ ++ b :: l₂) (hused : c.free = false) : c ∈ l₁ ∨ c ∈ l₂ := by
    have hcb : c ≠ b := by rintro rfl; simp [hused] at hb
    simpa [hcb] using hc
  by_cases hlarge : size + headerSize + heapAlignment ≤ b.size
  · obtain ⟨hs₁, ht, hend⟩ := blockSplit_of_large hs hlarge
    have hs₂ := hs₁.setFree (v := 0) (by decide)
    refine ⟨{ b.front size with free := false },
      l₁ ++ { b.front size with free := false } :: b.rest size :: l₂, ?_, by simp, rfl, rfl,
      le_rfl, ?_⟩
    · have hrest : 0 < (b.rest size).size ∧ heapAlignment ∣ (b.rest size).size := by
        simp only [Block.rest, heapAlignment, headerSize] at *
        omega
      have htail : Layout ([] ++ b.rest size :: l₂) :=
        layout_iff.mpr ⟨⟨by simp, .nil⟩, hl₂, hrest, by simp, fun y hy' hfree =>
          hy y hy' ⟨hb, hfree.2⟩⟩
      exact layout_iff.mpr ⟨hl₁, htail, hsize, by simp, by simp⟩
    · have ht₂ : Touches ((l₁ ++ { b.front size with free := false } :: b.rest size :: l₂).map
          Block.addr) h ((blockSplit h b.addr size).setFree b.addr 0) := by
        refine (ht.mono fun a ha => ?_).trans (.setFree (by simp [Block.front]))
        obtain ⟨c, hc, rfl⟩ := List.mem_map.mp ha
        rw [List.map_append]
        exact List.mem_append_right _ (List.mem_map.mpr (by
          rcases List.mem_cons.mp hc with rfl | hc
          · exact ⟨{ b.front size with free := false }, by simp, rfl⟩
          · exact ⟨c, List.mem_cons_of_mem _ hc, rfl⟩))
      refine ⟨ht₂.keeps hs₂ (fun a ha => List.mem_map.mp ha) hend fun c hc hused => ?_,
        ht₂.inHeap hs₂ fun a ha => List.mem_map.mp ha⟩
      rcases hother hc hused with hc | hc <;> simp [hc]
  · have hsmall : blockSplit h b.addr size = h := by
      refine blockSplit_of_small hs (by omega) ?_
      simp only [Block.stop, heapBase, headerSize, heapAlignment] at *
      omega
    rw [hsmall]
    have hs₂ := hs.setFree (v := 0) (by decide)
    have ht₂ : Touches [b.addr] h (h.setFree b.addr 0) := .setFree (by simp)
    have hw : ∀ a ∈ [b.addr], ∃ c ∈ l₁ ++ { b with free := false } :: l₂, c.addr = a :=
      fun a ha => ⟨{ b with free := false }, by simp, (List.mem_singleton.mp ha).symm⟩
    refine ⟨{ b with free := false }, l₁ ++ { b with free := false } :: l₂,
      layout_iff.mpr ⟨hl₁, hl₂, hbsize, by simp, by simp⟩, by simp, rfl, rfl, hfit,
      ht₂.keeps hs₂ hw rfl fun c hc hused => ?_, ht₂.inHeap hs₂ hw⟩
    rcases hother hc hused with hc | hc <;> simp [hc]

end

/-! ### Extension -/

/-- What mapping pages from `start` on leaves as it was. -/
structure Grown (start : ℕ) (h h' : Heap) : Prop where
  mem : ∀ x < start, h'.mem x = h.mem x
  heapFirst : h'.heapFirst = h.heapFirst
  heapLast : h'.heapLast = h.heapLast
  heapEnd : h'.heapEnd = h.heapEnd
  written : h'.written = h.written
  mapped : ∀ p, h.mapped p = true → h'.mapped p = true

section
variable {h h' : Heap} {l : List Block} {pages : ℕ → PageOutcome}

theorem Grown.refl (start : ℕ) (h : Heap) : Grown start h h :=
  ⟨fun _ _ => rfl, rfl, rfl, rfl, rfl, fun _ hp => hp⟩

theorem Grown.mapPage {start next : ℕ} {contents : ℕ → UInt8} (hle : start ≤ next)
    (hg : Grown next (h.mapPage start contents) h') : Grown start h h' := by
  refine ⟨fun x hx => ?_, hg.heapFirst, hg.heapLast, hg.heapEnd, hg.written, fun p hp => hg.mapped p ?_⟩
  · rw [hg.mem x (by omega), Heap.mapPage]
    exact if_neg (by omega)
  · simp only [Heap.mapPage, Function.update_apply]
    split
    · rfl
    · exact hp

/-- The loop ends; when it reports success, it has mapped all of its `j` pages. -/
theorem mapLoop_spec (pages : ℕ → PageOutcome) {last n j current : ℕ} (hlast : last = current + j * pageSize)
    (hlt : last < 2 ^ 64) (hn : j ≤ n) : ∃ h' ret, mapLoop pages last n h current = .ok (h', ret) ∧
      Grown current h h' ∧ (ret = 0 → ∀ i < j, h'.mapped (current + i * pageSize) = true) := by
  induction n generalizing h current j with
  | zero =>
    obtain rfl : j = 0 := by omega
    refine ⟨h, 0, ?_, .refl current h, by simp⟩
    rw [mapLoop, if_neg (by omega)]
  | succ n ih =>
    cases j with
    | zero =>
      refine ⟨h, 0, ?_, .refl current h, by simp⟩
      rw [mapLoop, if_neg (by omega)]
    | succ j =>
      have hgo : current < last := by simp only [pageSize] at hlast; omega
      rw [mapLoop, if_pos hgo]
      by_cases hpage : (pages current).page = 0
      · exact ⟨h, -enomem, if_pos hpage, .refl current h, by simp [enomem]⟩
      · by_cases hmap : (pages current).mapResult = 0
        · have hnext : wrap64 (current + pageSize) = current + pageSize :=
            wrap64_of_lt (by rw [Nat.add_mul] at hlast; omega)
          have hlast' : last = current + pageSize + j * pageSize := by rw [hlast]; ring
          obtain ⟨h', ret, hok, hg, hmapped⟩ :=
            ih (h := h.mapPage current (pages current).contents) hlast' (by omega)
          refine ⟨h', ret, ?_, hg.mapPage (by omega), fun hret i hi => ?_⟩
          · rw [if_neg hpage, if_neg (by simpa using hmap), hnext]
            exact hok
          · cases i with
            | zero =>
              refine hg.mapped _ ?_
              simp [Heap.mapPage]
            | succ i =>
              have hi' := hmapped hret i (by omega)
              rwa [show current + (i + 1) * pageSize = current + pageSize + i * pageSize by ring]
        · refine ⟨h, (pages current).mapResult, ?_, .refl current h, fun h0 => absurd h0 hmap⟩
          rw [if_neg hpage, if_pos hmap]

theorem Grown.shows (hg : Grown h.heapEnd h h') (hs : Shows h l) : Shows h' l := by
  refine ⟨hs.linked.congr fun b hb x _ hx => hg.mem x ?_, hg.heapFirst.trans hs.first,
    hg.heapLast.trans hs.last, hg.heapEnd ▸ hs.tiles, hg.heapEnd ▸ hs.bound⟩
  have hstop := (hs.tiles.bounds hb).2.2
  have hheader := headerSize_le_stop b
  omega

end

/-- The heap between two calls. -/
structure Good (h : Heap) (l : List Block) : Prop where
  shows : Shows h l
  layout : Layout l
  mapped : ∀ x, heapBase ≤ x → x < h.heapEnd → h.mapped (x / pageSize * pageSize) = true
  aligned : pageSize ∣ h.heapEnd

/-- Every used block is still there, and no write went to its payload. -/
def KeepsUsed (h : Heap) (l : List Block) (h' : Heap) (l' : List Block) : Prop :=
  ∀ c ∈ l, c.free = false → c ∈ l' ∧ Spares c h h'

section
variable {h h' h'' : Heap} {l l' l'' : List Block} {b : Block} {pages : ℕ → PageOutcome}

theorem Keeps.good {P : Block → Prop} (hk : Keeps P h l h' l') (hg : Good h l) (hl : Layout l') :
    Good h' l' :=
  ⟨hk.shows, hl, by rw [hk.mapped, hk.heapEnd]; exact hg.mapped, by
    rw [hk.heapEnd]; exact hg.aligned⟩

theorem KeepsUsed.trans (hk : KeepsUsed h l h' l') (hk' : KeepsUsed h' l' h'' l'') :
    KeepsUsed h l h'' l'' := by
  intro c hc hused
  obtain ⟨hc', hs⟩ := hk c hc hused
  obtain ⟨hc'', hs'⟩ := hk' c hc' hused
  exact ⟨hc'', hs.trans hs'⟩

/-- The bytes by which `heap_extend(size)` moves the end of the heap. -/
def extensionBytes (size : ℕ) : ℕ := alignUpSize (wrap64 (size + headerSize)) pageSize

/-- The loop of `map_heap_range` runs: the end of the extension, as the code computes it, lies
behind the end of the heap. -/
def Extends (h : Heap) (size : ℕ) : Prop := h.heapEnd < wrap64 (h.heapEnd + extensionBytes size)

instance (h : Heap) : DecidablePred (Extends h) := fun _ => Nat.decLt _ _

theorem extensionBytes_dvd (size : ℕ) : pageSize ∣ extensionBytes size := by
  have hwrap (v : ℕ) : wrap64 v < 2 ^ 64 := Nat.mod_lt _ (by decide)
  have hdown := alignDown_eq (k := 12) (by decide)
    (hwrap (wrap64 (size + headerSize) + pageSize - 1))
  exact ⟨_, hdown.trans (Nat.mul_comm _ _)⟩

theorem extensionBytes_lt (size : ℕ) : extensionBytes size < 2 ^ 64 :=
  lt_of_le_of_lt Nat.and_le_left (Nat.mod_lt _ (by decide))

theorem Extends.pos {size : ℕ} (hx : Extends h size) : extensionBytes size ≠ 0 := by
  intro hzero
  rw [Extends, hzero, Nat.add_zero] at hx
  exact absurd (Nat.mod_le h.heapEnd (2 ^ 64)) (Nat.not_le.mpr hx)

theorem extends_iff {size : ℕ} (hend : h.heapEnd < 2 ^ 64) :
    Extends h size ↔ 0 < extensionBytes size ∧ h.heapEnd + extensionBytes size < 2 ^ 64 := by
  have hlt := extensionBytes_lt size
  unfold Extends wrap64
  generalize extensionBytes size = bytes at *
  rcases Nat.lt_or_ge (h.heapEnd + bytes) (2 ^ 64) with hsum | hsum
  · rw [Nat.mod_eq_of_lt hsum]
    omega
  · have hmod : (h.heapEnd + bytes) % 2 ^ 64 = h.heapEnd + bytes - 2 ^ 64 := by
      rw [Nat.mod_eq_sub_mod hsum, Nat.mod_eq_of_lt (by omega)]
    omega

/-- Without overflow there is room for the request. -/
theorem le_extensionBytes {size : ℕ} (hlt : size + headerSize + pageSize ≤ 2 ^ 64) :
    size + headerSize ≤ extensionBytes size := by
  have hpage : pageSize = 2 ^ 12 := rfl
  have hlt' : size + headerSize + 2 ^ 12 - 1 < 2 ^ 64 := by rw [hpage] at hlt; omega
  rw [extensionBytes, wrap64_of_lt (by omega), alignUpSize, hpage, alignUp_eq (by decide) hlt']
  omega

theorem Grown.good (hgr : Grown h.heapEnd h h') (hg : Good h l) : Good h' l :=
  ⟨hgr.shows hg.shows, hg.layout, fun x hx hlt => hgr.mapped _ (hg.mapped x hx (hgr.heapEnd ▸ hlt)),
    hgr.heapEnd ▸ hg.aligned⟩

theorem Grown.keepsUsed (hgr : Grown h.heapEnd h h') : KeepsUsed h l h' l :=
  fun _ hc _ => ⟨hc, [], hgr.written, by simp⟩

/-- Linking a freshly mapped range as one free block. -/
theorem extend_good {bytes : ℕ} (hg : Good h l) (hbytes : headerSize < bytes)
    (hdvd : pageSize ∣ bytes) (hend : h.heapEnd + bytes < 2 ^ 64)
    (hmapped : ∀ i < bytes / pageSize, h.mapped (h.heapEnd + i * pageSize) = true) :
    ∃ l', Good (mergePrev (linkBlock h h.heapEnd bytes) h.heapEnd) l' ∧
      KeepsUsed h l (mergePrev (linkBlock h h.heapEnd bytes) h.heapEnd) l' ∧
      (mergePrev (linkBlock h h.heapEnd bytes) h.heapEnd).heapEnd = h.heapEnd + bytes ∧
      WritesInHeap h (mergePrev (linkBlock h h.heapEnd bytes) h.heapEnd) ∧
      ∃ c ∈ l', c.free = true ∧ bytes ≤ c.size + headerSize := by
  obtain ⟨hs, ht, hend'⟩ := linkBlock_shows hg.shows hbytes.le hend
  have hsize : 0 < (h.extension bytes).size ∧ heapAlignment ∣ (h.extension bytes).size := by
    simp only [Heap.extension, heapAlignment, headerSize, pageSize] at *
    omega
  obtain ⟨l', hl', hk, hw, c, hc, hfree, hroom⟩ := mergePrev_layout (P := fun c => c.free = false)
    hs rfl hsize hg.layout ⟨by simp, .nil⟩ (by simp) fun _ hc => hc
  have haddr : (h.extension bytes).addr = h.heapEnd := rfl
  rw [haddr] at hk hw
  refine ⟨l', ⟨hk.shows, hl', fun x hx hlt => ?_, ?_⟩, fun c hc hused => ?_,
    hk.heapEnd.trans hend', ?_, c, hc, hfree, ?_⟩
  · rw [hk.mapped, ht.mapped]
    rw [hk.heapEnd, hend'] at hlt
    by_cases hold : x < h.heapEnd
    · exact hg.mapped x hx hold
    · have hal := hg.aligned
      have hi := hmapped ((x - h.heapEnd) / pageSize) (by simp only [pageSize] at *; omega)
      have hx' : x / pageSize * pageSize =
          h.heapEnd + (x - h.heapEnd) / pageSize * pageSize := by
        simp only [pageSize] at *
        omega
      rwa [hx']
  · rw [hk.heapEnd, hend']
    exact Nat.dvd_add hg.aligned hdvd
  · have hc' : c ∈ l ++ [h.extension bytes] := by simp [hc]
    obtain ⟨hkept, hsp⟩ := hk.kept c hc' hused
    exact ⟨hkept, (ht.spares hs (fun a ha => List.mem_map.mp ha) hc').trans hsp⟩
  · exact (ht.inHeap hs fun a ha => List.mem_map.mp ha).trans hw hk.heapEnd.ge
  · simp only [Heap.extension] at hroom
    omega

/-- What `heap_extend(size)` leaves: with `ret ≠ 0` some mapped pages behind the heap, and
otherwise a longer heap with a free block of the new bytes. -/
inductive Extended (h : Heap) (l : List Block) (size : ℕ) (h' : Heap) : ℤ → Prop
  | failed {ret : ℤ} : ret ≠ 0 → Grown h.heapEnd h h' → Extended h l size h' ret
  | linked (l' : List Block) : Good h' l' → KeepsUsed h l h' l' →
      h'.heapEnd = h.heapEnd + extensionBytes size → WritesInHeap h h' →
      (∃ c ∈ l', c.free = true ∧ extensionBytes size ≤ c.size + headerSize) →
      Extended h l size h' 0

/-- An extension whose pages are all mapped. -/
theorem Grown.extended {size : ℕ} (hgr : Grown h.heapEnd h h') (hg : Good h l)
    (hx : Extends h size) (hmapped : ∀ i < extensionBytes size / pageSize,
      h'.mapped (h.heapEnd + i * pageSize) = true) :
    Extended h l size (mergePrev (linkBlock h' h.heapEnd (extensionBytes size)) h.heapEnd) 0 := by
  obtain ⟨hpos, hend⟩ := (extends_iff hg.shows.bound).mp hx
  have hdvd := extensionBytes_dvd size
  have hheader : headerSize < extensionBytes size :=
    lt_of_lt_of_le (show headerSize < pageSize by decide) (Nat.le_of_dvd hpos hdvd)
  have hend' : h'.heapEnd = h.heapEnd := hgr.heapEnd
  obtain ⟨l', hgood, hk, hbound, hw, hroom⟩ := extend_good (hgr.good hg) hheader hdvd
    (by rw [hend']; exact hend) (by rw [hend']; exact hmapped)
  rw [hend'] at hgood hk hbound hw
  obtain ⟨new, hnew, hin⟩ := hw
  rw [hgr.written] at hnew
  exact .linked l' hgood (hgr.keepsUsed.trans hk) hbound ⟨new, hnew, hin⟩ hroom

theorem heapExtend_of_mapped {size : ℕ}
    (hmap : mapHeapRange h pages h.heapEnd (extensionBytes size) = .ok (h', 0)) :
    heapExtend h pages size =
      .ok (mergePrev (linkBlock h' h.heapEnd (extensionBytes size)) h.heapEnd, 0) := by
  have hbytes : alignUpSize (wrap64 (size + headerSize)) pageSize = extensionBytes size := rfl
  simp only [heapExtend, hbytes, hmap, bind, Except.bind]
  exact if_neg (by simp)

theorem heapExtend_of_failed {size : ℕ} {ret : ℤ}
    (hmap : mapHeapRange h pages h.heapEnd (extensionBytes size) = .ok (h', ret)) (hret : ret ≠ 0) :
    heapExtend h pages size = .ok (h', ret) := by
  have hbytes : alignUpSize (wrap64 (size + headerSize)) pageSize = extensionBytes size := rfl
  simp only [heapExtend, hbytes, hmap, bind, Except.bind]
  exact if_pos hret

theorem heapExtend_extended (pages : ℕ → PageOutcome) {size : ℕ} (hg : Good h l)
    (hx : Extends h size) :
    ∃ h' ret, heapExtend h pages size = .ok (h', ret) ∧ Extended h l size h' ret := by
  obtain ⟨hpos, hend⟩ := (extends_iff hg.shows.bound).mp hx
  obtain ⟨j, hj⟩ := extensionBytes_dvd size
  have hjn : j ≤ extensionBytes size := by simp only [pageSize] at hj; omega
  have hlast : h.heapEnd + extensionBytes size = h.heapEnd + j * pageSize := by
    rw [hj, Nat.mul_comm]
  obtain ⟨h', ret, hmap, hgr, hmapped⟩ := mapLoop_spec (h := h) pages hlast hend hjn
  have hrange : mapHeapRange h pages h.heapEnd (extensionBytes size) = .ok (h', ret) := by
    rw [mapHeapRange, wrap64_of_lt hend]
    exact hmap
  by_cases hret : ret = 0
  · have hdiv : extensionBytes size / pageSize = j := by simp only [pageSize] at hj ⊢; omega
    exact ⟨_, 0, heapExtend_of_mapped (hret ▸ hrange),
      hgr.extended hg hx (by rw [hdiv]; exact hmapped hret)⟩
  · exact ⟨h', ret, heapExtend_of_failed hrange hret, .failed hret hgr⟩

end

end Tianole.Mm
