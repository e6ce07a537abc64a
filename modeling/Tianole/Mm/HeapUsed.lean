import Tianole.Mm.HeapRequests

/-! The blocks in use, as a list of their own: merging and extending the heap do not change it,
`kmalloc` adds one block and `kfree` takes one away. -/
namespace Tianole.Mm
open Memory Word Tiling

/-- The blocks in use, in the order of their addresses. -/
def usedBlocks (l : List Block) : List Block := l.filter fun b => !b.free

section
variable {h h' : Heap} {l l' l₁ l₂ : List Block} {b c : Block} {n size p : ℕ}
  {pages : ℕ → PageOutcome}

@[simp] theorem mem_usedBlocks : b ∈ usedBlocks l ↔ b ∈ l ∧ b.free = false := by
  simp [usedBlocks]

@[simp] theorem usedBlocks_append : usedBlocks (l₁ ++ l₂) = usedBlocks l₁ ++ usedBlocks l₂ :=
  List.filter_append ..

theorem usedBlocks_cons_free (hb : b.free = true) : usedBlocks (b :: l) = usedBlocks l := by
  simp [usedBlocks, hb]

theorem usedBlocks_cons_used (hb : b.free = false) :
    usedBlocks (b :: l) = b :: usedBlocks l := by
  simp [usedBlocks, hb]

/-! ### The list that a heap spells -/

theorem linked_tiles_unique {m : Mem} {s e before before' after after' : ℕ}
    (hl : Linked m before l after) (hl' : Linked m before' l' after')
    (ht : Tiles Block.addr Block.stop s l e) (ht' : Tiles Block.addr Block.stop s l' e) :
    l = l' := by
  have hstop (d : Block) : d.addr < d.stop := by
    have := headerSize_le_stop d
    simp only [headerSize] at this
    omega
  induction l generalizing s before before' l' with
  | nil =>
    cases l' with
    | nil => rfl
    | cons d l' =>
      obtain rfl : s = e := ht
      have hbounds := ht'.bounds (b := d) (by simp)
      have := hstop d
      omega
  | cons b l ih =>
    cases l' with
    | nil =>
      obtain rfl : s = e := ht'
      have hbounds := ht.bounds (b := b) (by simp)
      have := hstop b
      omega
    | cons d l' =>
      obtain ⟨hB, hL⟩ := hl
      obtain ⟨hD, hL'⟩ := hl'
      obtain ⟨hb, -, hT⟩ := ht
      obtain ⟨hd, -, hT'⟩ := ht'
      have haddr : b.addr = d.addr := hb.trans hd.symm
      have hsize : b.size = d.size := by rw [← hB.size, ← hD.size, haddr]
      have hfree : b.free = d.free := by
        rw [Bool.eq_iff_iff, ← hB.free, ← hD.free, haddr]
      obtain rfl : b = d := by
        cases b
        cases d
        simp_all
      rw [ih hL hL' hT hT']

/-- The blocks are determined by the heap. -/
theorem Shows.unique (hs : Shows h l) (hs' : Shows h l') : l = l' :=
  linked_tiles_unique hs.linked hs'.linked hs.tiles hs'.tiles

/-! ### Merging -/

theorem blockMergeNext_used (hs : Shows h (l₁ ++ b :: l₂)) (hb : b.free = true) :
    ∃ b' l', b'.addr = b.addr ∧ b'.free = true ∧
      Shows (blockMergeNext h b.addr) (l₁ ++ b' :: l') ∧ usedBlocks l' = usedBlocks l₂ := by
  by_cases hnext : ∀ d ∈ l₂.head?, d.free = false
  · rw [blockMergeNext_of_used hs hnext]
    exact ⟨b, l₂, rfl, hb, hs, rfl⟩
  · cases l₂ with
    | nil => simp at hnext
    | cons d l₃ =>
      have hd : d.free = true := by simpa using hnext
      exact ⟨b.absorb d, l₃, rfl, hb, (blockMergeNext_free hs hd).1, (usedBlocks_cons_free hd).symm⟩

theorem mergePrev_used (hs : Shows h (l₁ ++ b :: l₂)) (hb : b.free = true) :
    ∃ l', Shows (mergePrev h b.addr) l' ∧ usedBlocks l' = usedBlocks l₁ ++ usedBlocks l₂ := by
  by_cases hlast : ∀ z ∈ l₁.getLast?, z.free = false
  · rw [mergePrev_of_used hs hlast]
    exact ⟨_, hs, by rw [usedBlocks_append, usedBlocks_cons_free hb]⟩
  · rcases l₁.eq_nil_or_concat' with rfl | ⟨l₀, z, rfl⟩
    · simp at hlast
    · have hz : z.free = true := by simpa using hlast
      have hs' : Shows h (l₀ ++ z :: b :: l₂) := by simpa using hs
      have habsorb : (z.absorb b).free = true := hz
      refine ⟨_, (mergePrev_of_free hs' hz hb).1, ?_⟩
      rw [usedBlocks_append, usedBlocks_append, usedBlocks_cons_free habsorb,
        usedBlocks_cons_free hz, List.append_assoc]
      rfl

/-- `kfree` takes one block off the list. -/
theorem kfree_used (hs : Shows h (l₁ ++ b :: l₂)) :
    ∃ l', Shows (kfree h (b.addr + headerSize)) l' ∧
      usedBlocks l' = usedBlocks l₁ ++ usedBlocks l₂ := by
  have hs₁ : Shows (h.setFree b.addr 1) (l₁ ++ { b with free := true } :: l₂) :=
    hs.setFree (by decide)
  obtain ⟨b', l₃, haddr, hb', hs₂, hused⟩ := blockMergeNext_used hs₁ rfl
  obtain ⟨l', hs₃, hused'⟩ := mergePrev_used hs₂ hb'
  rw [haddr] at hs₃
  rw [kfree_payload]
  exact ⟨l', hs₃, by rw [hused', hused]⟩

/-! ### Allocation -/

/-- Taking a free block puts it on the list. -/
theorem takeBlock_used (hs : Shows h (l₁ ++ b :: l₂)) (hfit : size ≤ b.size) :
    (takeBlock h b.addr size).2 = b.addr + headerSize ∧ ∃ b' l', b'.addr = b.addr ∧
      Shows (takeBlock h b.addr size).1 l' ∧
      usedBlocks l' = usedBlocks l₁ ++ b' :: usedBlocks l₂ := by
  have hpos : b.addr ≠ 0 := (hs.addr_pos (by simp)).ne'
  have htake : takeBlock h b.addr size =
      ((blockSplit h b.addr size).setFree b.addr 0, b.addr + headerSize) := if_neg hpos
  rw [htake]
  refine ⟨rfl, ?_⟩
  by_cases hlarge : size + headerSize + heapAlignment ≤ b.size
  · have hs₂ := (blockSplit_of_large hs hlarge).1.setFree (v := 0) (by decide)
    refine ⟨{ b.front size with free := false }, _, rfl, hs₂, ?_⟩
    rw [usedBlocks_append, usedBlocks_cons_used rfl, usedBlocks_cons_free rfl]
    rfl
  · have hstop := hs.stop_lt (b := b) (by simp)
    have hlow := (hs.tiles.bounds (b := b) (by simp)).1
    have hsmall : blockSplit h b.addr size = h := by
      refine blockSplit_of_small hs (by omega) ?_
      simp only [Block.stop, heapBase, headerSize, heapAlignment] at *
      omega
    rw [hsmall]
    refine ⟨{ b with free := false }, _, rfl, hs.setFree (v := 0) (by decide), ?_⟩
    rw [usedBlocks_append, usedBlocks_cons_used rfl]
    rfl

/-- An extension adds only a free block. -/
theorem heapExtend_used {ret : ℤ} (hg : Good h l) (hx : Extends h size)
    (hs : heapExtend h pages size = .ok (h', ret)) :
    ∃ l', Shows h' l' ∧ usedBlocks l' = usedBlocks l := by
  obtain ⟨hpos, hend⟩ := (extends_iff hg.shows.bound).mp hx
  obtain ⟨j, hj⟩ := extensionBytes_dvd size
  have hheader : headerSize ≤ extensionBytes size :=
    le_trans (show headerSize ≤ pageSize by decide) (Nat.le_of_dvd hpos ⟨j, hj⟩)
  have hlast : h.heapEnd + extensionBytes size = h.heapEnd + j * pageSize := by
    rw [hj, Nat.mul_comm]
  obtain ⟨h₁, ret₁, hmap, hgr, -⟩ := mapLoop_spec (h := h) pages (n := extensionBytes size) hlast
    hend (by simp only [pageSize] at hj; omega)
  have hrange : mapHeapRange h pages h.heapEnd (extensionBytes size) = .ok (h₁, ret₁) := by
    rw [mapHeapRange, wrap64_of_lt hend]
    exact hmap
  have hshows := hgr.shows hg.shows
  by_cases hret : ret₁ = 0
  · rw [heapExtend_of_mapped (hret ▸ hrange)] at hs
    obtain ⟨rfl, -⟩ := Prod.mk.inj (Except.ok.inj hs)
    have hlink := (linkBlock_shows hshows hheader (by rw [hgr.heapEnd]; exact hend)).1
    rw [hgr.heapEnd] at hlink
    obtain ⟨l', hs', hused⟩ := mergePrev_used (b := h₁.extension (extensionBytes size)) hlink rfl
    have haddr : (h₁.extension (extensionBytes size)).addr = h.heapEnd := hgr.heapEnd
    rw [haddr] at hs'
    exact ⟨l', hs', hused.trans (List.append_nil _)⟩
  · rw [heapExtend_of_failed hrange hret] at hs
    obtain ⟨rfl, -⟩ := Prod.mk.inj (Except.ok.inj hs)
    exact ⟨l, hshows, rfl⟩

theorem takeFound_used (hs : Shows h l)
    (hs' : Shows (takeBlock h ((l.find? fun b => b.fits size).elim 0 Block.addr) size).1 l')
    (hc : c ∈ usedBlocks l') : c ∈ usedBlocks l ∨ c.addr + headerSize =
      (takeBlock h ((l.find? fun b => b.fits size).elim 0 Block.addr) size).2 := by
  cases hfind : l.find? fun b => b.fits size with
  | none =>
    rw [hfind] at hs'
    obtain rfl := hs'.unique hs
    exact .inl hc
  | some b =>
    rw [hfind] at hs'
    have hfits : b.fits size = true := by simpa using List.find?_some hfind
    have hroom : size ≤ b.size := by
      simp only [Block.fits, Bool.and_eq_true, decide_eq_true_eq] at hfits
      exact hfits.2
    obtain ⟨l₁, l₂, rfl⟩ := List.append_of_mem (List.mem_of_find?_eq_some hfind)
    obtain ⟨hp, b', l'', haddr, hs'', hused⟩ := takeBlock_used hs hroom
    obtain rfl := hs'.unique hs''
    rw [hused, List.mem_append, List.mem_cons] at hc
    simp only [usedBlocks_append, List.mem_append]
    rcases hc with hc | rfl | hc
    · exact .inl (.inl hc)
    · exact .inr (by rw [haddr]; exact hp.symm)
    · refine .inl (.inr ?_)
      simp only [mem_usedBlocks] at hc ⊢
      exact ⟨List.mem_cons_of_mem _ hc.1, hc.2⟩

/-- After `kmalloc` no block is in use but those that were, and the one returned. -/
theorem kmalloc_used (hg : Good h l) (hn : n = 0 ∨ Sized h n)
    (hs : kmalloc h pages n = .ok (h', p)) (hs' : Shows h' l') (hc : c ∈ usedBlocks l') :
    c ∈ usedBlocks l ∨ c.addr + headerSize = p := by
  by_cases hzero : n = 0
  · rw [kmalloc, if_pos hzero] at hs
    obtain ⟨rfl, -⟩ := Prod.mk.inj (Except.ok.inj hs)
    obtain rfl := hs'.unique hg.shows
    exact .inl hc
  · have hwrap := (hn.resolve_left hzero).2
    have hfind := findFreeBlock_eq (alignUpSize n heapAlignment) hg.shows
    by_cases hnone : (l.find? fun b => b.fits (alignUpSize n heapAlignment)).elim 0 Block.addr = 0
    · rw [hnone] at hfind
      obtain ⟨h₁, ret, hext, -⟩ := heapExtend_extended pages hg (hwrap hfind)
      obtain ⟨l₁, hs₁, hused⟩ := heapExtend_used hg (hwrap hfind) hext
      rw [← hused]
      by_cases hret : ret = 0
      · rw [hret] at hext
        rw [kmalloc_of_extended hzero hfind hext, findFreeBlock_eq _ hs₁] at hs
        obtain ⟨rfl, rfl⟩ := Prod.mk.inj (Except.ok.inj hs)
        exact takeFound_used hs₁ hs' hc
      · rw [kmalloc_of_failed hzero hfind hext hret] at hs
        obtain ⟨rfl, -⟩ := Prod.mk.inj (Except.ok.inj hs)
        obtain rfl := hs'.unique hs₁
        exact .inl hc
    · rw [kmalloc_of_found pages hzero hfind hnone] at hs
      obtain ⟨rfl, rfl⟩ := Prod.mk.inj (Except.ok.inj hs)
      exact takeFound_used hg.shows hs' hc

end

end Tianole.Mm
