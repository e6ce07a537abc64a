import Tianole.Mm.HeapLayout

/-! What `kmalloc` does with a request, when its size and the end of the heap are computed without
overflow. -/
namespace Tianole.Mm
open Memory Word Tiling

section
variable {h h' : Heap} {l l₁ l₂ : List Block} {b c : Block} {n size : ℕ} {pages : ℕ → PageOutcome}

theorem alignUpSize_request (hn : n + heapAlignment - 1 < 2 ^ 64) :
    n ≤ alignUpSize n heapAlignment ∧ heapAlignment ∣ alignUpSize n heapAlignment := by
  have halign : heapAlignment = 2 ^ 4 := rfl
  rw [alignUpSize, halign, alignUp_eq (by decide) hn]
  refine ⟨?_, Nat.dvd_mul_left _ _⟩
  omega

/-- Blocks of a tiling are known by their addresses. -/
theorem addr_injective {s e : ℕ} (ht : Tiles Block.addr Block.stop s l e) (hb : b ∈ l) (hc : c ∈ l)
    (he : b.addr = c.addr) : b = c := by
  induction l generalizing s with
  | nil => cases hb
  | cons d l ih =>
    obtain ⟨-, -, htl⟩ := ht
    have hd := headerSize_le_stop d
    simp only [headerSize] at hd
    rcases List.mem_cons.mp hb with rfl | hb' <;> rcases List.mem_cons.mp hc with rfl | hc'
    · rfl
    · have hstart := (htl.bounds hc').1
      omega
    · have hstart := (htl.bounds hb').1
      omega
    · exact ih htl hb' hc'

/-- What `kmalloc` promises for the pointer that it returns: a used block that was not in use
before, with room for `size` bytes. -/
def Fresh (l : List Block) (l' : List Block) (p size : ℕ) : Prop :=
  p ≠ 0 → ∃ b ∈ l', b.free = false ∧ p = b.addr + headerSize ∧ size ≤ b.size ∧
    ∀ c ∈ l, c.free = false → c.addr ≠ b.addr

/-- What is left when a block that fits, or none, has been taken. -/
structure Taken (h : Heap) (l : List Block) (size : ℕ) (h' : Heap) (l' : List Block) (p : ℕ) :
    Prop where
  good : Good h' l'
  kept : KeepsUsed h l h' l'
  fresh : Fresh l l' p size
  writes : WritesInHeap h h'
  heapEnd : h'.heapEnd = h.heapEnd

theorem Taken.null (hg : Good h l) (size : ℕ) : Taken h l size h l 0 :=
  ⟨hg, fun c hc _ => ⟨hc, .refl c h⟩, fun hp => absurd rfl hp, .of_eq rfl, rfl⟩

theorem takeBlock_taken (hg : Good h l) (hsize : 0 < size ∧ heapAlignment ∣ size) :
    ∃ l', Taken h l size (takeBlock h ((l.find? fun b => b.fits size).elim 0 Block.addr) size).1 l'
      (takeBlock h ((l.find? fun b => b.fits size).elim 0 Block.addr) size).2 := by
  cases hfind : l.find? fun b => b.fits size with
  | none => exact ⟨l, .null hg size⟩
  | some b =>
    have hfits : b.fits size = true := by
      simpa using List.find?_some hfind
    obtain ⟨hfree, hroom⟩ : b.free = true ∧ size ≤ b.size := by simpa [Block.fits] using hfits
    obtain ⟨l₁, l₂, rfl⟩ := List.append_of_mem (List.mem_of_find?_eq_some hfind)
    obtain ⟨hp, b', l', hl', hb', haddr, hused, hroom', hk, hw⟩ :=
      takeBlock_layout hg.shows hg.layout hfree hroom hsize
    refine ⟨l', hk.good hg hl', hk.kept, fun _ => ⟨b', hb', hused, ?_, hroom', ?_⟩, hw, hk.heapEnd⟩
    · rw [haddr]
      exact hp
    · intro c hc hcused hca
      obtain rfl := addr_injective hg.shows.tiles hc (by simp) (hca.trans haddr)
      rw [hfree] at hcused
      cases hcused

theorem Fresh.mono {l₀ l' : List Block} {p : ℕ} (hf : Fresh l l' p size) (hn : n ≤ size)
    (hk : ∀ c ∈ l₀, c.free = false → c ∈ l) : Fresh l₀ l' p n := by
  intro hp
  obtain ⟨b, hb, hused, hpb, hroom, hne⟩ := hf hp
  exact ⟨b, hb, hused, hpb, hn.trans hroom, fun c hc hcused => hne c (hk c hc hcused) hcused⟩

/-- The rounding of the request does not overflow, and if the heap must be extended, pages are
mapped for that. -/
def Sized (h : Heap) (n : ℕ) : Prop :=
  n + heapAlignment - 1 < 2 ^ 64 ∧ (findFreeBlock h (alignUpSize n heapAlignment) = .ok 0 →
    Extends h (alignUpSize n heapAlignment))

/-- What `kmalloc(n)` leaves, with the pointer that it returns. -/
structure Served (h : Heap) (l : List Block) (n : ℕ) (h' : Heap) (l' : List Block) (p : ℕ) :
    Prop where
  good : Good h' l'
  kept : KeepsUsed h l h' l'
  fresh : Fresh l l' p n
  writes : WritesInHeap h h'
  heapEnd : h'.heapEnd = h.heapEnd ∨ findFreeBlock h (alignUpSize n heapAlignment) = .ok 0 ∧
    h'.heapEnd = h.heapEnd + extensionBytes (alignUpSize n heapAlignment)

theorem kmalloc_of_found {block : ℕ} (pages : ℕ → PageOutcome) (hn : n ≠ 0)
    (hfind : findFreeBlock h (alignUpSize n heapAlignment) = .ok block) (hne : block ≠ 0) :
    kmalloc h pages n = .ok (takeBlock h block (alignUpSize n heapAlignment)) := by
  simp only [kmalloc, if_neg hn, hfind, bind, Except.bind, if_neg hne]
  rfl

theorem kmalloc_of_failed {ret : ℤ} (hn : n ≠ 0)
    (hfind : findFreeBlock h (alignUpSize n heapAlignment) = .ok 0)
    (hext : heapExtend h pages (alignUpSize n heapAlignment) = .ok (h', ret)) (hret : ret ≠ 0) :
    kmalloc h pages n = .ok (h', 0) := by
  simp only [kmalloc, if_neg hn, hfind, bind, Except.bind, ↓reduceIte, hext]
  exact if_pos hret

theorem kmalloc_of_extended (hn : n ≠ 0)
    (hfind : findFreeBlock h (alignUpSize n heapAlignment) = .ok 0)
    (hext : heapExtend h pages (alignUpSize n heapAlignment) = .ok (h', 0)) :
    kmalloc h pages n = (findFreeBlock h' (alignUpSize n heapAlignment)).map fun block =>
      takeBlock h' block (alignUpSize n heapAlignment) := by
  simp only [kmalloc, if_neg hn, hfind, bind, Except.bind, ↓reduceIte, hext]
  cases findFreeBlock h' (alignUpSize n heapAlignment) <;> rfl

/-- Taking a block after something that kept the used blocks. -/
theorem Taken.served {h₁ : Heap} {l₁ l' : List Block} {p : ℕ} (ht : Taken h₁ l₁ size h' l' p)
    (hk : KeepsUsed h l h₁ l₁) (hw : WritesInHeap h h₁) (hle : n ≤ size)
    (hend : h₁.heapEnd = h.heapEnd ∨ findFreeBlock h (alignUpSize n heapAlignment) = .ok 0 ∧
      h₁.heapEnd = h.heapEnd + extensionBytes (alignUpSize n heapAlignment)) :
    Served h l n h' l' p :=
  ⟨ht.good, hk.trans ht.kept, ht.fresh.mono hle fun c hc hused => (hk c hc hused).1,
    hw.trans ht.writes ht.heapEnd.ge, by rw [ht.heapEnd]; exact hend⟩

/-- A failed extension is followed by a null pointer. -/
theorem Grown.served (hgr : Grown h.heapEnd h h') (hg : Good h l) (n : ℕ) : Served h l n h' l 0 :=
  ⟨hgr.good hg, hgr.keepsUsed, fun hp => absurd rfl hp, .of_eq hgr.written, .inl hgr.heapEnd⟩

/-- `kmalloc` returns, keeps the heap good and every used block, and gives fresh memory. -/
theorem kmalloc_served (pages : ℕ → PageOutcome) (hg : Good h l) (hn : n = 0 ∨ Sized h n) :
    ∃ h' p l', kmalloc h pages n = .ok (h', p) ∧ Served h l n h' l' p := by
  have hstay : KeepsUsed h l h l := fun c hc _ => ⟨hc, .refl c h⟩
  by_cases hzero : n = 0
  · exact ⟨h, 0, l, if_pos hzero, (Grown.refl h.heapEnd h).served hg n⟩
  · obtain ⟨hsmall, hwrap⟩ := hn.resolve_left hzero
    obtain ⟨hle, hdvd⟩ := alignUpSize_request hsmall
    have hsize : 0 < alignUpSize n heapAlignment ∧ heapAlignment ∣ alignUpSize n heapAlignment :=
      ⟨by omega, hdvd⟩
    have hfind := findFreeBlock_eq (alignUpSize n heapAlignment) hg.shows
    by_cases hnone : (l.find? fun b => b.fits (alignUpSize n heapAlignment)).elim 0 Block.addr = 0
    · -- Nothing fits: extend, and search again if that succeeded.
      rw [hnone] at hfind
      obtain ⟨h₁, ret, hext, hres⟩ := heapExtend_extended pages hg (hwrap hfind)
      cases hres with
      | failed hret hgr => exact ⟨h₁, 0, l, kmalloc_of_failed hzero hfind hext hret, hgr.served hg n⟩
      | linked l₁ hg₁ hk₁ hend hw₁ hroom =>
        obtain ⟨l₂, htaken⟩ := takeBlock_taken hg₁ hsize
        refine ⟨_, _, l₂, ?_, htaken.served hk₁ hw₁ hle (.inr ⟨hfind, hend⟩)⟩
        rw [kmalloc_of_extended hzero hfind hext, findFreeBlock_eq _ hg₁.shows]
        rfl
    · obtain ⟨l', htaken⟩ := takeBlock_taken hg hsize
      exact ⟨_, _, l', kmalloc_of_found pages hzero hfind hnone,
        htaken.served hstay (.of_eq rfl) hle (.inl rfl)⟩

end

end Tianole.Mm
