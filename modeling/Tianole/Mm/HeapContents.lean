import Tianole.Mm.HeapSafety

/-! The bytes of live memory: `kmalloc` changes none of them, and `kfree` none but those that it
frees. -/
namespace Tianole.Mm
open Memory Word Tiling

/-- Below `bound`, a byte that is not in a field recorded between `h` and `h'` is as it was. -/
def Recorded (bound : ℕ) (h h' : Heap) : Prop :=
  ∃ new, h'.written = new ++ h.written ∧
    ∀ x < bound, (∀ r ∈ new, x < r.1 ∨ r.1 + r.2 ≤ x) → h'.mem x = h.mem x

section
variable {h h₁ h₂ : Heap} {l : List Block} {bound a width v block next size n : ℕ}
  {pages : ℕ → PageOutcome}

theorem Recorded.of_eq (hmem : ∀ x < bound, h₁.mem x = h.mem x) (hw : h₁.written = h.written) :
    Recorded bound h h₁ := ⟨[], hw, fun x hx _ => hmem x hx⟩

theorem Recorded.refl (bound : ℕ) (h : Heap) : Recorded bound h h := .of_eq (fun _ _ => rfl) rfl

theorem Recorded.trans (hr : Recorded bound h h₁) (hr' : Recorded bound h₁ h₂) :
    Recorded bound h h₂ := by
  obtain ⟨new₁, he₁, hm₁⟩ := hr
  obtain ⟨new₂, he₂, hm₂⟩ := hr'
  refine ⟨new₂ ++ new₁, by rw [he₂, he₁, List.append_assoc], fun x hx hout => ?_⟩
  rw [hm₂ x hx fun r hr => hout r (List.mem_append_left _ hr)]
  exact hm₁ x hx fun r hr => hout r (List.mem_append_right _ hr)

theorem Recorded.write : Recorded bound h (h.write a width v) := by
  refine ⟨[(a, width)], rfl, fun x _ hout => ?_⟩
  exact store_of_outside (hout (a, width) List.mem_cons_self)

theorem Recorded.setLast : Recorded bound h (h.setLast a) := .of_eq (fun _ _ => rfl) rfl

theorem Recorded.setFirst : Recorded bound h (h.setFirst a) := .of_eq (fun _ _ => rfl) rfl

theorem Recorded.setEnd : Recorded bound h (h.setEnd a) := .of_eq (fun _ _ => rfl) rfl

theorem Recorded.ite {c : Prop} [Decidable c] (h₁' : Recorded bound h h₁)
    (h₂' : Recorded bound h h₂) : Recorded bound h (if c then h₁ else h₂) := by
  split
  · exact h₁'
  · exact h₂'

theorem blockInsertAfter_recorded : Recorded bound h (blockInsertAfter h block next) := by
  unfold blockInsertAfter
  apply Recorded.trans _ .write
  apply Recorded.trans _ (.ite .write .setLast)
  exact Recorded.write.trans .write

theorem blockMergeNext_recorded : Recorded bound h (blockMergeNext h block) := by
  unfold blockMergeNext
  apply Recorded.ite (.refl bound h)
  apply Recorded.trans _ (.ite .write .setLast)
  exact Recorded.write.trans .write

theorem mergePrev_recorded : Recorded bound h (mergePrev h block) :=
  .ite blockMergeNext_recorded (.refl bound h)

theorem blockSplit_recorded : Recorded bound h (blockSplit h block size) := by
  unfold blockSplit
  apply Recorded.ite (.refl bound h)
  apply Recorded.trans _ blockInsertAfter_recorded
  exact (Recorded.write.trans .write).trans .write

theorem linkBlock_recorded : Recorded bound h (linkBlock h block size) := by
  unfold linkBlock
  apply Recorded.trans _ .setLast
  apply Recorded.trans _ (.ite .write .setFirst)
  exact (((Recorded.setEnd.trans .write).trans .write).trans .write).trans .write

theorem takeBlock_recorded : Recorded bound h (takeBlock h block size).1 := by
  unfold takeBlock
  split
  · exact .refl bound h
  · exact blockSplit_recorded.trans .write

theorem kfree_recorded : Recorded bound h (kfree h a) := by
  unfold kfree
  apply Recorded.ite (.refl bound h)
  exact (Recorded.write.trans blockMergeNext_recorded).trans mergePrev_recorded

theorem Grown.recorded (hg : Grown bound h h₁) : Recorded bound h h₁ := .of_eq hg.mem hg.written

/-- An extension maps pages behind the heap, whether or not it succeeds. -/
theorem heapExtend_recorded {ret : ℤ} (hg : Good h l) (hx : Extends h size)
    (hs : heapExtend h pages size = .ok (h₁, ret)) : Recorded h.heapEnd h h₁ := by
  obtain ⟨-, hend⟩ := (extends_iff hg.shows.bound).mp hx
  obtain ⟨j, hj⟩ := extensionBytes_dvd size
  have hjn : j ≤ extensionBytes size := by simp only [pageSize] at hj; omega
  have hlast : h.heapEnd + extensionBytes size = h.heapEnd + j * pageSize := by
    rw [hj, Nat.mul_comm]
  obtain ⟨h₂, ret₂, hmap, hgr, -⟩ := mapLoop_spec (h := h) pages hlast hend hjn
  have hrange : mapHeapRange h pages h.heapEnd (extensionBytes size) = .ok (h₂, ret₂) := by
    rw [mapHeapRange, wrap64_of_lt hend]
    exact hmap
  by_cases hret : ret₂ = 0
  · subst hret
    obtain ⟨rfl, -⟩ := Prod.mk.inj (Except.ok.inj ((heapExtend_of_mapped hrange).symm.trans hs))
    exact (hgr.recorded.trans linkBlock_recorded).trans mergePrev_recorded
  · obtain ⟨rfl, -⟩ :=
      Prod.mk.inj (Except.ok.inj ((heapExtend_of_failed hrange hret).symm.trans hs))
    exact hgr.recorded

theorem kmalloc_recorded {p : ℕ} (hg : Good h l) (hn : n = 0 ∨ Sized h n)
    (hs : kmalloc h pages n = .ok (h₁, p)) : Recorded h.heapEnd h h₁ := by
  by_cases hzero : n = 0
  · rw [kmalloc, if_pos hzero] at hs
    obtain ⟨rfl, -⟩ := Prod.mk.inj (Except.ok.inj hs)
    exact .refl _ _
  obtain ⟨-, hwrap⟩ := hn.resolve_left hzero
  have hfind := findFreeBlock_eq (alignUpSize n heapAlignment) hg.shows
  generalize (l.find? fun b => b.fits (alignUpSize n heapAlignment)).elim 0 Block.addr = block
    at hfind
  by_cases hnone : block = 0
  · rw [hnone] at hfind
    obtain ⟨h₂, ret, hext, hres⟩ := heapExtend_extended pages hg (hwrap hfind)
    have hrecorded := heapExtend_recorded hg (hwrap hfind) hext
    by_cases hret : ret = 0
    · subst hret
      rw [kmalloc_of_extended hzero hfind hext] at hs
      obtain ⟨block, -, htake⟩ := Runs.map_ok hs
      rw [show h₁ = (takeBlock h₂ block (alignUpSize n heapAlignment)).1 by rw [htake]]
      exact hrecorded.trans takeBlock_recorded
    · rw [kmalloc_of_failed hzero hfind hext hret] at hs
      obtain ⟨rfl, -⟩ := Prod.mk.inj (Except.ok.inj hs)
      exact hrecorded
  · rw [kmalloc_of_found pages hzero hfind hnone] at hs
    rw [show h₁ = (takeBlock h block (alignUpSize n heapAlignment)).1 by rw [Except.ok.inj hs]]
    exact takeBlock_recorded

/-- A payload that no recorded field lies in keeps its bytes. -/
theorem Recorded.payload {c : Block} {x : ℕ} (hr : Recorded bound h h₁) (hsp : Spares c h h₁)
    (hx : x < bound) (hlow : c.addr + headerSize ≤ x) (hhigh : x < c.stop) : h₁.mem x = h.mem x := by
  obtain ⟨new, he, hm⟩ := hr
  obtain ⟨new', he', hout⟩ := hsp
  obtain rfl := List.append_cancel_right (he.symm.trans he')
  apply hm x hx
  intro r hr
  have hr' := hout r hr
  omega

end

/-! ### The ledger -/

/-- Byte `x` belongs to one of the allocations. -/
def Within (live : List (ℕ × ℕ)) (x : ℕ) : Prop := ∃ r ∈ live, r.1 ≤ x ∧ x < r.1 + r.2

section
variable {h h' : Heap} {l : List Block} {live live' : List (ℕ × ℕ)} {n p x : ℕ}
  {pages : ℕ → PageOutcome}

theorem Ledger.perm (hl : Ledger h l live) (hp : live.Perm live') : Ledger h l live' := by
  refine ⟨hl.good, ⟨?_, ?_⟩, ?_⟩
  · exact (hp.map Prod.fst).nodup_iff.mp hl.owns.nodup
  · intro r hr
    exact hl.owns.used r (hp.mem_iff.mpr hr)
  · intro b hb
    exact (hp.map Prod.fst).mem_iff.mp (hl.accounted b hb)

theorem Ledger.ne_zero (hl : Ledger h l live) (hr : (p, n) ∈ live) : p ≠ 0 := by
  obtain ⟨b, hb, -, hpb, -⟩ := hl.owns.used _ hr
  have hpos := hl.good.shows.addr_pos hb
  simp only at hpb
  omega

theorem Ledger.inside (hl : Ledger h l live) (hr : (p, n) ∈ live) :
    heapBase ≤ p ∧ p + n ≤ h.heapEnd := by
  obtain ⟨b, hb, -, hpb, hroom⟩ := hl.owns.used _ hr
  have hbounds := hl.good.shows.tiles.bounds hb
  simp only [Block.stop] at hbounds hpb hroom
  omega

/-- Distinct allocations have no byte in common. -/
theorem Ledger.apart (hl : Ledger h l live) {q k : ℕ} (hr : (p, n) ∈ live) (hq : (q, k) ∈ live)
    (hne : p ≠ q) : p + n ≤ q ∨ q + k ≤ p := by
  obtain ⟨b, hb, -, hpb, hroom⟩ := hl.owns.used _ hr
  obtain ⟨c, hc, -, hqc, hroom'⟩ := hl.owns.used _ hq
  simp only at hpb hqc hroom hroom'
  rcases header_outside hl.good.shows.tiles hb hc with hbc | hcb
  · rcases header_outside hl.good.shows.tiles hc hb with hcb | hbc'
    · omega
    · simp only [Block.stop] at hbc'
      omega
  · simp only [Block.stop] at hcb
    omega

/-- The blocks in use are those of the live allocations. -/
theorem Ledger.used_perm (hl : Ledger h l live) :
    ((usedBlocks l).map fun b => b.addr + headerSize).Perm (live.map Prod.fst) := by
  have hnodup : ((usedBlocks l).map fun b => b.addr + headerSize).Nodup := by
    rw [List.Nodup, List.pairwise_map]
    apply (hl.good.shows.tiles.pairwise.filter _).imp
    intro b c hbc
    have hheader := headerSize_le_stop b
    simp only [headerSize] at hheader ⊢
    omega
  rw [List.perm_ext_iff_of_nodup hnodup hl.owns.nodup]
  intro q
  constructor
  · intro hq
    obtain ⟨b, hb, rfl⟩ := List.mem_map.mp hq
    exact hl.accounted b hb
  · intro hq
    obtain ⟨r, hr, rfl⟩ := List.mem_map.mp hq
    obtain ⟨b, hb, hused, hrb, -⟩ := hl.owns.used r hr
    exact List.mem_map.mpr ⟨b, mem_usedBlocks.mpr ⟨hb, hused⟩, hrb.symm⟩

/-- Only headers matter to the ledger, so memory may change in live allocations and outside the
heap. -/
theorem Ledger.withMem (hl : Ledger h l live) {mem : Mem}
    (hmem : ∀ x, heapBase ≤ x → x < h.heapEnd → ¬ Within live x → mem x = h.mem x) :
    Ledger { h with mem := mem } l live := by
  have hs := hl.good.shows
  refine ⟨⟨⟨hs.linked.congr ?_, hs.first, hs.last, hs.tiles, hs.bound⟩, hl.good.layout,
    hl.good.mapped, hl.good.aligned⟩, hl.owns, hl.accounted⟩
  intro c hc x hx hx'
  have hbounds := hs.tiles.bounds hc
  have hheader := headerSize_le_stop c
  apply hmem x (by omega) (by omega)
  rintro ⟨r, hr, hlow, hhigh⟩
  obtain ⟨b, hb, -, hrb, hroom⟩ := hl.owns.used r hr
  rcases header_outside hs.tiles hc hb with hle | hle
  · omega
  · simp only [Block.stop] at hle
    omega

/-- A `kmalloc` that succeeds adds one allocation and changes no byte of the others. -/
theorem Ledger.malloc (hl : Ledger h l live) (hn : NoWrap h n) (pages : ℕ → PageOutcome) :
    ∃ h' p l', Mm.kmalloc h pages n = .ok (h', p) ∧ Ledger h' l' (grant live p n) ∧
      (∀ x, Within live x → h'.mem x = h.mem x) ∧ h.heapEnd ≤ h'.heapEnd ∧
      h'.heapEnd ≤ h.heapEnd + extensionBytes (alignUpSize n heapAlignment) := by
  have hsized : n = 0 ∨ Sized h n := .inr (hn.sized hl.good)
  obtain ⟨h', p, l₁, hs, hserved⟩ := kmalloc_served pages hl.good hsized
  obtain ⟨l', hl', hge, hle⟩ := hl.kmalloc (.inr hn) hs
  refine ⟨h', p, l', hs, hl', ?_, hge, hle⟩
  rintro x ⟨r, hr, hlow, hhigh⟩
  obtain ⟨b, hb, hused, hrb, hroom⟩ := hl.owns.used r hr
  have hbounds := hl.good.shows.tiles.bounds hb
  have hstop : b.stop = b.addr + headerSize + b.size := rfl
  apply (kmalloc_recorded hl.good hsized hs).payload (hserved.kept b hb hused).2
  · omega
  · omega
  · omega

/-- `kfree` removes its allocation and changes no byte of the others. -/
theorem Ledger.release (hl : Ledger h l ((p, n) :: live)) : ∃ l', Ledger (Mm.kfree h p) l' live ∧
    (Mm.kfree h p).heapEnd = h.heapEnd ∧ ∀ x, Within live x → (Mm.kfree h p).mem x = h.mem x := by
  have hfresh : p ∉ live.map Prod.fst := (List.nodup_cons.mp hl.owns.nodup).1
  have hrevoke : revoke ((p, n) :: live) p = live := by
    rw [revoke, List.filter_cons_of_neg (by simp), List.filter_eq_self]
    intro r hr
    apply decide_eq_true
    intro heq
    apply hfresh
    rw [← heq]
    exact List.mem_map_of_mem hr
  obtain ⟨l', hl', hend⟩ := hl.kfree (p := p) (n := n) List.mem_cons_self
  rw [hrevoke] at hl'
  refine ⟨l', hl', hend, ?_⟩
  rintro x ⟨r, hr, hlow, hhigh⟩
  obtain ⟨-, -, -, -, hspares⟩ := kfree_good hl.good hl.owns List.mem_cons_self
  obtain ⟨b, hb, hused, hrb, hroom⟩ := hl.owns.used r (List.mem_cons_of_mem _ hr)
  have hbounds := hl.good.shows.tiles.bounds hb
  have hstop : b.stop = b.addr + headerSize + b.size := rfl
  have hrecorded : Recorded h.heapEnd h (Mm.kfree h p) := kfree_recorded
  apply hrecorded.payload (hspares b hb hused ?_)
  · omega
  · omega
  · omega
  · intro heq
    have hp : r.1 = p := hrb.trans heq
    rw [← hp] at hfresh
    exact hfresh (List.mem_map_of_mem hr)

end

end Tianole.Mm
