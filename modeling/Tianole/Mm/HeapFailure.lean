import Mathlib.Order.Interval.Finset.Nat
import Tianole.Mm.HeapBacking

/-! What a failed extension of the heap leaves behind in the heap, the page tables and the page
allocator. -/
namespace Tianole.Mm
open Memory Word Runs

namespace BackedHeap

/-- If the call extends the heap and that fails, it fails at the first page. -/
def Clean (σ : BackedHeap) (n : ℕ) : Prop :=
  findFreeBlock σ.heap (alignUpSize n heapAlignment) = .ok 0 → ∀ σ' ret,
    σ.heapExtend (alignUpSize n heapAlignment) = .ok (σ', ret) → ret ≠ 0 → FirstFails σ

section
variable {σ σ' σ₁ : BackedHeap} {l : List Block} {n p size : ℕ} {ret : ℤ}

/-! ### Allocation -/

theorem kmalloc_of_found {block : ℕ} (hn : n ≠ 0)
    (hfind : findFreeBlock σ.heap (alignUpSize n heapAlignment) = .ok block) (hne : block ≠ 0) :
    σ.kmalloc n = .ok (σ.take block (alignUpSize n heapAlignment)) := by
  simp only [kmalloc, if_neg hn, hfind, bind, Except.bind, if_neg hne]
  rfl

theorem kmalloc_of_failed (hn : n ≠ 0)
    (hfind : findFreeBlock σ.heap (alignUpSize n heapAlignment) = .ok 0)
    (hext : σ.heapExtend (alignUpSize n heapAlignment) = .ok (σ', ret)) (hret : ret ≠ 0) :
    σ.kmalloc n = .ok (σ', 0) := by
  simp only [kmalloc, if_neg hn, hfind, bind, Except.bind, ↓reduceIte, hext]
  exact if_pos hret

theorem kmalloc_of_extended (hn : n ≠ 0)
    (hfind : findFreeBlock σ.heap (alignUpSize n heapAlignment) = .ok 0)
    (hext : σ.heapExtend (alignUpSize n heapAlignment) = .ok (σ', 0)) :
    σ.kmalloc n = (findFreeBlock σ'.heap (alignUpSize n heapAlignment)).map fun block =>
      σ'.take block (alignUpSize n heapAlignment) := by
  simp only [kmalloc, if_neg hn, hfind, bind, Except.bind, ↓reduceIte, hext]
  cases findFreeBlock σ'.heap (alignUpSize n heapAlignment) <;> rfl

theorem Placed.congr (hp : Placed σ) (htables : σ'.tables = σ.tables)
    (hend : σ'.heap.heapEnd = σ.heap.heapEnd) : Placed σ' := by
  refine ⟨?_, hend ▸ hp.low, hend ▸ hp.lt, hend ▸ hp.aligned⟩
  rw [htables, hend]
  exact hp.backing

theorem take_heapEnd (σ : BackedHeap) (block size : ℕ) :
    (σ.take block size).1.heap.heapEnd = σ.heap.heapEnd :=
  (Records.refl σ.heap).takeBlock.heapEnd

theorem take_snd {block : ℕ} (hne : block ≠ 0) : (σ.take block size).2 = block + headerSize := by
  rw [take, takeBlock, if_neg hne]

theorem Extension.placed {i : ℕ} (he : Extension σ size σ' 0 i) (hp : Placed σ)
    (hx : Extends σ.heap size) : Placed σ' := by
  obtain ⟨hbytes, hend⟩ := he.done rfl
  refine ⟨?_, ?_, ?_, ?_⟩
  · rw [hend, ← hbytes]
    exact he.backing
  · rw [hend]
    exact hp.low.trans (Nat.le_add_right _ _)
  · rw [hend]
    exact ((extends_iff hp.lt).mp hx).2
  · rw [hend]
    exact Nat.dvd_add hp.aligned (extensionBytes_dvd size)

/-- The first round of an extension maps a page, or fails and leaves the heap as it was. -/
theorem Placed.backed (hp : Placed σ) (hx : Extends σ.heap size) :
    ∃ σ' ret, σ.backPage σ.heap.heapEnd = .ok (σ', ret) ∧ Backed σ σ.heap.heapEnd σ' ret := by
  obtain ⟨hpos, hlt⟩ := (extends_iff hp.lt).mp hx
  have hbytes := Nat.le_of_dvd hpos (extensionBytes_dvd size)
  exact backPage_backed hp.backing hp.low (by omega) hp.aligned

/-- What is left of an extension that fails at its first page. -/
theorem Placed.first_failed (hp : Placed σ) (hx : Extends σ.heap size) (hfirst : FirstFails σ)
    (hext : σ.heapExtend size = .ok (σ', ret)) :
    σ'.heap = σ.heap ∧ Placed σ' ∧ σ'.tables.supply.length ≤ 1 ∧
      ∀ page ∈ σ'.taken, page ∈ σ.taken ∨ page ∈ σ'.tables.supply := by
  obtain ⟨σ₁, ret₁, hpage, hret⟩ := hfirst
  obtain ⟨σ₂, ret₂, hpage₂, hres⟩ := hp.backed hx
  obtain ⟨rfl, rfl⟩ := Prod.mk.inj (Except.ok.inj (hpage₂.symm.trans hpage))
  obtain ⟨rfl, rfl⟩ := Prod.mk.inj (Except.ok.inj
    ((heapExtend_of_first hx hret hpage).symm.trans hext))
  cases hres with
  | mapped => exact absurd rfl hret
  | failed _ hheap hb _ hlen hback =>
    refine ⟨hheap, ⟨?_, hheap ▸ hp.low, hheap ▸ hp.lt, hheap ▸ hp.aligned⟩, hlen, hback⟩
    rw [hheap]
    exact hb

/-- `kmalloc` over the page tables does to the heap what it does over some page layer, and keeps
the tables in step with the heap unless an extension failed halfway. -/
theorem Placed.kmalloc (hp : Placed σ)
    (hx : n = 0 ∨ (findFreeBlock σ.heap (alignUpSize n heapAlignment) = .ok 0 →
      Extends σ.heap (alignUpSize n heapAlignment)))
    (hm : σ.kmalloc n = .ok (σ', p)) :
    (∃ pages, Mm.kmalloc σ.heap pages n = .ok (σ'.heap, p)) ∧
      (n = 0 ∨ p ≠ 0 ∨ Clean σ n → Placed σ' ∧
        σ'.heap.heapEnd ≤ σ.heap.heapEnd + extensionBytes (alignUpSize n heapAlignment)) := by
  by_cases hn : n = 0
  · rw [BackedHeap.kmalloc, if_pos hn] at hm
    obtain ⟨rfl, rfl⟩ := Prod.mk.inj (Except.ok.inj hm)
    exact ⟨⟨zeroPages, if_pos hn⟩, fun _ => ⟨hp, Nat.le_add_right _ _⟩⟩
  · have hx := hx.resolve_left hn
    cases hfind : findFreeBlock σ.heap (alignUpSize n heapAlignment) with
    | error e =>
      rw [BackedHeap.kmalloc, if_neg hn] at hm
      simp only [hfind, bind, Except.bind] at hm
      cases hm
    | ok block =>
      by_cases hblock : block = 0
      · rw [hblock] at hfind
        obtain ⟨σ₁, ret, i, hext, he⟩ := heapExtend_extension hp (hx hfind)
        obtain ⟨pages, hpages⟩ := he.refines
        by_cases hret : ret = 0
        · rw [hret] at hext he hpages
          rw [kmalloc_of_extended hn hfind hext] at hm
          obtain ⟨block', hfind', htake⟩ := map_ok hm
          obtain ⟨rfl, rfl⟩ := Prod.mk.inj htake
          have hend := take_heapEnd σ₁ block' (alignUpSize n heapAlignment)
          refine ⟨⟨pages, ?_⟩, fun _ => ⟨(he.placed hp (hx hfind)).congr rfl hend, ?_⟩⟩
          · rw [Mm.kmalloc_of_extended hn hfind hpages, hfind']
            rfl
          · exact hend.le.trans (he.done rfl).2.le
        · rw [kmalloc_of_failed hn hfind hext hret] at hm
          obtain ⟨rfl, rfl⟩ := Prod.mk.inj (Except.ok.inj hm)
          refine ⟨⟨pages, Mm.kmalloc_of_failed hn hfind hpages hret⟩, fun hclean => ?_⟩
          have hfirst := (hclean.resolve_left hn).resolve_left (fun h => h rfl) hfind _ _ hext hret
          obtain ⟨hheap, hp', -⟩ := hp.first_failed (hx hfind) hfirst hext
          exact ⟨hp', by rw [hheap]; exact Nat.le_add_right _ _⟩
      · rw [kmalloc_of_found hn hfind hblock] at hm
        obtain ⟨rfl, rfl⟩ := Prod.mk.inj (Except.ok.inj hm)
        have hend := take_heapEnd σ block (alignUpSize n heapAlignment)
        exact ⟨⟨zeroPages, Mm.kmalloc_of_found zeroPages hn hfind hblock⟩,
          fun _ => ⟨hp.congr rfl hend, hend.le.trans (Nat.le_add_right _ _)⟩⟩

/-! ### Initialisation -/

theorem extends_of_small (hbytes : extensionBytes size = pageSize) (hlow : heapBase ≤ σ.heap.heapEnd)
    (hend : σ.heap.heapEnd ≤ heapBase + 8 * pageSize) : Extends σ.heap size := by
  have hbase : heapBase + 9 * pageSize < 2 ^ 64 := by decide
  refine (extends_iff (by omega)).mpr ?_
  rw [hbytes]
  exact ⟨by decide, by omega⟩

theorem kfree_heapEnd (h : Heap) (ptr : ℕ) : (kfree h ptr).heapEnd = h.heapEnd := by
  unfold kfree
  split
  · rfl
  · exact (Records.refl h).write.blockMergeNext.mergePrev.heapEnd

theorem Placed.heapSelftest (hp : Placed σ) (hend : σ.heap.heapEnd ≤ heapBase + pageSize)
    (hs : σ.heapSelftest = .ok σ') :
    Placed σ' ∧ ∃ pages₁ pages₂ pages₃, ∀ pages : ℕ → ℕ → PageOutcome, pages 1 = pages₁ →
      pages 2 = pages₂ → pages 3 = pages₃ → Mm.heapSelftest σ.heap pages = .ok σ'.heap := by
  have h8 : extensionBytes (alignUpSize 8 heapAlignment) = pageSize := by decide
  have h128 : extensionBytes (alignUpSize 128 heapAlignment) = pageSize := by decide
  obtain ⟨⟨σ₁, first⟩, hm₁, hs⟩ := bind_ok hs
  obtain ⟨⟨σ₂, second⟩, hm₂, hs⟩ := bind_ok hs
  dsimp only at hm₂ hs
  split at hs
  · cases hs
  · rename_i hnull
    obtain ⟨hfirst, hsecond⟩ := not_or.mp hnull
    split at hs
    · cases hs
    · rename_i hload
      obtain ⟨⟨σ₃, third⟩, hm₃, hs⟩ := bind_ok hs
      dsimp only at hs
      split at hs
      · cases hs
      · rename_i hthird
        obtain rfl := Except.ok.inj hs
        obtain ⟨⟨pages₁, hr₁⟩, hk₁⟩ := hp.kmalloc
          (.inr fun _ => extends_of_small h8 hp.low (by omega)) hm₁
        obtain ⟨hp₁, hend₁⟩ := hk₁ (.inr (.inl hfirst))
        obtain ⟨⟨pages₂, hr₂⟩, hk₂⟩ := hp₁.kmalloc
          (.inr fun _ => extends_of_small h128 hp₁.low (by omega)) hm₂
        obtain ⟨hp₂, hend₂⟩ := hk₂ (.inr (.inl hsecond))
        -- The stores and the first `kfree` move no end.
        have hkeep := kfree_heapEnd (((σ₂.heap.poke first 8 selftestWord).poke second 1 0x31).poke
          (second + 127) 1 0x32) first
        have hp₂' : Placed ((σ₂.onHeap fun h => ((h.poke first 8 selftestWord).poke
          second 1 0x31).poke (second + 127) 1 0x32).onHeap fun h => kfree h first) :=
          hp₂.congr rfl hkeep
        obtain ⟨⟨pages₃, hr₃⟩, hk₃⟩ := hp₂'.kmalloc
          (.inr fun _ => extends_of_small h8 hp₂'.low (hkeep.le.trans (by
            change σ₂.heap.heapEnd ≤ heapBase + 8 * pageSize
            omega))) hm₃
        obtain ⟨hp₃, -⟩ := hk₃ (.inr (.inl hthird))
        refine ⟨hp₃.congr rfl ((kfree_heapEnd _ _).trans (kfree_heapEnd _ _)),
          pages₁, pages₂, pages₃, ?_⟩
        rintro pages rfl rfl rfl
        simp only [onHeap] at hload hr₃
        simp only [Mm.heapSelftest, hr₁, hr₂, bind, Except.bind, if_neg hnull, if_neg hload, hr₃,
          if_neg hthird]
        rfl

theorem placed_bootHeap (mem : Mem) {tables : PageTables} (taken : List ℕ)
    (hb : Backing tables heapBase) : Placed ⟨bootHeap mem, tables, taken⟩ :=
  ⟨hb, le_rfl, (by decide : heapBase < 2 ^ 64), (by decide : pageSize ∣ heapBase)⟩

/-- `heap_init` over the page tables does what it does over some page layer. -/
theorem placed_heapInit {mem : Mem} {tables : PageTables} {taken : List ℕ}
    (hb : Backing tables heapBase) (hs : heapInit ⟨bootHeap mem, tables, taken⟩ = .ok σ') :
    Placed σ' ∧ ∃ pages, Mm.heapInit (bootHeap mem) pages = .ok σ'.heap := by
  have hp := placed_bootHeap mem taken hb
  have hbytes : extensionBytes (pageSize - headerSize) = pageSize := by decide
  have hx := bootHeap_extends mem
  obtain ⟨σ₁, ret, i, hext, he⟩ := heapExtend_extension hp hx
  obtain ⟨pages₀, hpages₀⟩ := he.refines
  have hready : (bootHeap mem).heapReady = false := rfl
  rw [heapInit, if_neg (by simp [hready])] at hs
  simp only [onHeap, bootHeap_setEnd, hext, bind, Except.bind] at hs
  by_cases hret : ret = 0
  · rw [hret] at he hpages₀
    rw [hret, if_neg (by simp)] at hs
    have hp₁ : Placed (σ₁.onHeap fun h => { h with heapReady := true }) :=
      (he.placed hp hx).congr rfl rfl
    have hend : σ₁.heap.heapEnd ≤ heapBase + pageSize := by
      rw [(he.done rfl).2, hbytes]
      exact le_rfl
    obtain ⟨hp', pages₁, pages₂, pages₃, hpages⟩ := hp₁.heapSelftest hend hs
    refine ⟨hp', fun k => [pages₀, pages₁, pages₂, pages₃].getD k pages₀, ?_⟩
    rw [Mm.heapInit, if_neg (by simp [hready])]
    simp only [bootHeap_setEnd, List.getD_cons_zero, hpages₀, bind, Except.bind]
    rw [if_neg (by simp)]
    exact hpages _ rfl rfl rfl
  · rw [if_pos hret] at hs
    cases hs

/-! ### Other users of the page layer -/

variable {st st' : PageTables} {top virt k : ℕ}

theorem Backing.withSupply {pages : List ℕ} (hb : Backing st top)
    (hf : FreshSupply (st.heapSlots.withSupply pages)) (hzero : 0 ∉ pages) :
    Backing (st.withSupply pages) top :=
  ⟨hb.tree.withSupply pages, hf, hzero, hb.mapped⟩

theorem Backing.takePage (hb : Backing st top) : Backing st.takePage.1 top := by
  have hsub := List.tail_sublist st.supply
  exact hb.withSupply (hb.fresh.sublist hsub) fun h0 => hb.nonzero (hsub.subset h0)

/-- Tables that are the same below the heap's entries. -/
theorem Backing.of_same (hb : Backing st top) (hsame : SameTables st.heapSlots st'.heapSlots)
    (hsupply : st'.supply <:+ st.supply) : Backing st' top := by
  refine .of_slots (hsame.tree hb.tree) (hsame.fresh (hb.fresh.sublist hsupply.sublist))
    (fun h0 => hb.nonzero (hsupply.subset h0)) fun virt hvirt hlt => ?_
  rw [hsame.leafOf_eq]
  exact hb.mapped_slots hvirt hlt

/-- Tables that differ below the heap's entries in the mapping of a page below the heap. -/
theorem Backing.of_other (hb : Backing st top) (hvirt : Canonical virt) (hlow : virt < heapBase)
    (htree : TreeTables st'.heapSlots) (huses : Uses k st.heapSlots st'.heapSlots)
    (hother : ∀ u, Canonical u → Canonical virt → u / pageSize ≠ virt / pageSize →
      st'.heapSlots.leafOf u = st.heapSlots.leafOf u) : Backing st' top := by
  refine .of_slots htree (@Uses.fresh _ _ [] _ huses hb.fresh) (fun h0 => hb.nonzero ?_)
    fun u hu hlt => ?_
  · obtain ⟨used, hused, -⟩ := huses
    rw [supply_heapSlots] at hused
    rw [hused]
    exact List.mem_append_right _ h0
  · have hne : u / pageSize ≠ virt / pageSize := by
      simp only [heapBase, pageSize] at *
      omega
    rw [hother u (canonical_of_heapBase hu hlt) hvirt hne]
    exact hb.mapped_slots hu hlt

/-- Mapping a page below the heap, through tables of its entries or through others. -/
theorem Backing.mapBelow {phys flags : ℕ} (hb : Backing st top) (hv : pageSize ∣ virt)
    (hvirt : Canonical virt) (hlow : virt < heapBase) (hp : pageSize ∣ phys) (hlt : phys < 2 ^ 52)
    (hf : MapFlags flags) (hspares : (indexAt virt 39).val < heapSlot → st.Spares virt) :
    Backing (Mm.mapPage st virt phys flags).1 top := by
  by_cases hslot : (indexAt virt 39).val < heapSlot
  · have hkeeps : KeepsWords st.HeapWord st (Mm.mapPage st virt phys flags).1 :=
      mapPage_keeps hb.fresh.pagesApart ((hspares hslot).walk hslot)
    exact hb.of_same hkeeps.same hkeeps.supply
  · obtain ⟨htree, -, hother, huses, -⟩ := mapPage_spec hb.tree hb.fresh hv hp hlt hf
    rw [heapSlots_mapPage hb.tree hb.fresh (Nat.not_lt.mp hslot)] at htree hother huses
    exact hb.of_other hvirt hlow htree huses hother

theorem Backing.unmapBelow (hb : Backing st top) (hv : pageSize ∣ virt) (hvirt : Canonical virt)
    (hlow : virt < heapBase) (hspares : (indexAt virt 39).val < heapSlot → st.Spares virt) :
    Backing (unmapPage st virt).1 top := by
  by_cases hslot : (indexAt virt 39).val < heapSlot
  · have hkeeps := unmapPage_keeps ((hspares hslot).walk hslot)
    exact hb.of_same hkeeps.same hkeeps.supply
  · obtain ⟨htree, -, -, hother, huses⟩ := unmapPage_spec hb.tree hv
    rw [heapSlots_unmapPage hb.tree (Nat.not_lt.mp hslot)] at htree hother huses
    exact hb.of_other hvirt hlow htree huses hother

theorem Placed.withTables (hp : Placed σ) (hb : Backing st σ.heap.heapEnd) :
    Placed { σ with tables := st } := ⟨hb, hp.low, hp.lt, hp.aligned⟩

end

end BackedHeap

/-! ### Runs -/

open BackedHeap

structure BackedSystem where
  memory : BackedHeap
  /-- Pointer and requested size of each allocation that has not been freed. -/
  live : List (ℕ × ℕ)

inductive BackedAction where
  | malloc (n : ℕ)
  | free (p : ℕ)
  | store (a v : ℕ)
  /-- What the rest of the kernel does with the page allocator and the page tables. -/
  | allocPage
  | freePage (page : ℕ)
  | map (virt phys flags : ℕ)
  | unmap (virt : ℕ)

/-- The records are those of the next call. -/
def BackedHeap.clearLog (σ : BackedHeap) : BackedHeap :=
  { σ with heap := σ.heap.clearLog, taken := [] }

namespace BackedSystem

def setTables (σ : BackedSystem) (tables : PageTables) : BackedSystem :=
  ⟨{ σ.memory with tables := tables }, σ.live⟩

def step (σ : BackedSystem) : BackedAction → Except Stop BackedSystem
  | .malloc n => (σ.memory.clearLog.kmalloc n).map fun r => ⟨r.1, grant σ.live r.2 n⟩
  | .free p => .ok ⟨σ.memory.clearLog.onHeap fun h => kfree h p, revoke σ.live p⟩
  | .store a v => .ok ⟨σ.memory.clearLog.onHeap fun h => h.poke a 1 v, σ.live⟩
  | .allocPage => .ok (σ.setTables σ.memory.tables.takePage.1)
  | .freePage page => (σ.memory.tables.freePage page).map σ.setTables
  | .map virt phys flags => .ok (σ.setTables (mapPage σ.memory.tables virt phys flags).1)
  | .unmap virt => .ok (σ.setTables (unmapPage σ.memory.tables virt).1)

/-- The heap without the tables behind it. -/
def plain (σ : BackedSystem) : HeapSystem := ⟨σ.memory.heap, σ.live⟩

/-- Requests are computed without overflow, and an extension that fails does so at its first page.
Live memory is used as in `HeapSystem.Admissible`. Others free pages that are in use neither as
tables of the heap nor behind it, and map and unmap whole pages below the heap, through tables that
are not the heap's unless its PML4 entries lead to them. -/
def Admissible (σ : BackedSystem) : BackedAction → Prop
  | .malloc n => n = 0 ∨ Sized σ.memory.clearLog.heap n ∧ σ.memory.clearLog.Clean n
  | .free p => σ.plain.Admissible (.free p)
  | .store a v => σ.plain.Admissible (.store a v)
  | .allocPage => True
  | .freePage page => page ≠ 0 ∧
      FreshSupply (σ.memory.tables.heapSlots.withSupply (page :: σ.memory.tables.supply)) ∧
      ∀ virt e, heapBase ≤ virt → σ.memory.tables.leafOf virt = some e → e &&& x86PageMask ≠ page
  | .map virt phys flags => pageSize ∣ virt ∧ Canonical virt ∧ virt < heapBase ∧
      pageSize ∣ phys ∧ phys < 2 ^ 52 ∧ MapFlags flags ∧
      ((indexAt virt 39).val < heapSlot → σ.memory.tables.Spares virt)
  | .unmap virt => pageSize ∣ virt ∧ Canonical virt ∧ virt < heapBase ∧
      ((indexAt virt 39).val < heapSlot → σ.memory.tables.Spares virt)

/-- The states after `heap_init`, over tables that map nothing where the heap will be, and any
admissible steps. -/
def Reachable : BackedSystem → Prop :=
  Reach step (fun σ => (∃ mem tables taken, Backing tables heapBase ∧
    BackedHeap.heapInit ⟨bootHeap mem, tables, taken⟩ = .ok σ.memory) ∧ σ.live = []) Admissible

section
variable {σ σ' : BackedSystem} {act : BackedAction} {n : ℕ}

/-- A step is a step of the heap over some page layer, or leaves the heap as it is. -/
theorem step_simulates (hp : Placed σ.memory) (hc : σ.plain.CarefullyReachable)
    (ha : σ.Admissible act) (hs : σ.step act = .ok σ') :
    σ'.plain.CarefullyReachable ∧ Placed σ'.memory := by
  have hp₀ : Placed σ.memory.clearLog := hp.congr rfl rfl
  cases act with
  | malloc n =>
    obtain ⟨⟨memory, p⟩, hm, rfl⟩ := map_ok hs
    have hx : n = 0 ∨ (findFreeBlock σ.memory.clearLog.heap (alignUpSize n heapAlignment) = .ok 0 →
        Extends σ.memory.clearLog.heap (alignUpSize n heapAlignment)) := ha.imp_right fun h => h.1.2
    obtain ⟨⟨pages, hpages⟩, hkeep⟩ := hp₀.kmalloc hx hm
    obtain ⟨l, hg, -⟩ := hc.good
    have hcareful : σ.plain.Careful (.malloc n pages) := by
      refine ha.imp_right fun ⟨hsized, _⟩ => ⟨?_, ?_⟩
      · have hlt := hsized.1
        simp only [heapAlignment] at hlt
        omega
      · exact (HeapSystem.clearLog_answerable hg).mp (hsized.answerable pages)
    refine ⟨.next hc hcareful ?_, ?_⟩
    · change (Mm.kmalloc σ.memory.heap.clearLog pages n).map _ = _
      rw [show σ.memory.heap.clearLog = σ.memory.clearLog.heap from rfl, hpages]
      rfl
    · exact (hkeep (ha.imp_right fun h => .inr h.2)).1
  | free p =>
    obtain rfl := Except.ok.inj hs
    exact ⟨.next hc (a := .free p) ha rfl, hp.congr rfl (kfree_heapEnd _ _)⟩
  | store a v =>
    obtain rfl := Except.ok.inj hs
    exact ⟨.next hc (a := .store a v) ha rfl, hp.congr rfl rfl⟩
  | allocPage =>
    obtain rfl := Except.ok.inj hs
    exact ⟨hc, hp.withTables hp.backing.takePage⟩
  | freePage page =>
    obtain ⟨hne, hfresh, -⟩ := ha
    obtain ⟨tables, hfree, rfl⟩ := map_ok hs
    obtain ⟨hdvd, -, -⟩ := hfresh.fresh page List.mem_cons_self hne
    rw [freePage_eq hdvd hne] at hfree
    obtain rfl := Except.ok.inj hfree
    refine ⟨hc, hp.withTables (hp.backing.withSupply hfresh ?_)⟩
    simpa using ⟨hne.symm, hp.backing.nonzero⟩
  | map virt phys flags =>
    obtain ⟨hv, hcanon, hlow, hphys, hlt, hflags, hspares⟩ := ha
    obtain rfl := Except.ok.inj hs
    exact ⟨hc, hp.withTables (hp.backing.mapBelow hv hcanon hlow hphys hlt hflags hspares)⟩
  | unmap virt =>
    obtain ⟨hv, hcanon, hlow, hspares⟩ := ha
    obtain rfl := Except.ok.inj hs
    exact ⟨hc, hp.withTables (hp.backing.unmapBelow hv hcanon hlow hspares)⟩

/-- Every run is one of the heap over some page layer, with the tables in step with the heap. -/
theorem Reachable.placed (h : σ.Reachable) : σ.plain.CarefullyReachable ∧ Placed σ.memory := by
  refine Reach.invariant (I := fun σ => σ.plain.CarefullyReachable ∧ Placed σ.memory) h ?_ ?_
  · rintro σ ⟨⟨mem, tables, taken, hb, hinit⟩, hlive⟩
    obtain ⟨hp, pages, hpages⟩ := placed_heapInit hb hinit
    exact ⟨.start ⟨⟨mem, pages, hpages⟩, hlive⟩, hp⟩
  · rintro σ act σ' ⟨hc, hp⟩ ha hs
    exact step_simulates hp hc ha hs

end

end BackedSystem

/-! ### After the failure -/

/-- Pages have been freed. -/
def BackedHeap.refill (σ : BackedHeap) (freed : List ℕ) : BackedHeap :=
  { σ with tables := σ.tables.withSupply (freed ++ σ.tables.supply) }

/-- What a failed `kmalloc(n)`, from `σ` to `σ'`, owes to its caller. Four free pages are enough for
each page of the extension: itself and the three tables that it may need. -/
structure Harmless (σ σ' : BackedHeap) (n : ℕ) : Prop where
  unmapped : ∀ virt, σ.heap.heapEnd ≤ virt → virt < 2 ^ 64 → σ'.tables.leafOf virt = none
  returned : ∀ page ∈ σ'.taken, page ∈ σ'.tables.supply
  blocks : ∀ l, Shows σ.heap l → Shows σ'.heap l
  heapEnd : σ'.heap.heapEnd = σ.heap.heapEnd
  retry : ∀ freed, FreshSupply (σ'.refill freed).tables.heapSlots → 0 ∉ freed →
    4 * (extensionBytes (alignUpSize n heapAlignment) / pageSize) ≤
      (σ'.refill freed).tables.supply.length →
    ∃ σ'' p, (σ'.refill freed).kmalloc n = .ok (σ'', p) ∧ p ≠ 0

namespace BackedHeap

section
variable {σ σ' : BackedHeap} {st : PageTables} {l : List Block} {n size top : ℕ} {ret : ℤ}

/-- Positive numbers below a bound that are not in use. -/
theorem exists_unused (used : Finset ℕ) {bound k : ℕ} (hk : used.card + k < bound) :
    ∃ frames : List ℕ, frames.Nodup ∧ k ≤ frames.length ∧
      ∀ f ∈ frames, 0 < f ∧ f < bound ∧ f ∉ used := by
  refine ⟨(Finset.Ico 1 bound \ used).toList, Finset.nodup_toList _, ?_, fun f hf => ?_⟩
  · have hcard := Finset.le_card_sdiff used (Finset.Ico 1 bound)
    rw [Nat.card_Ico] at hcard
    rw [Finset.length_toList]
    omega
  · obtain ⟨hico, hnot⟩ := Finset.mem_sdiff.mp (Finset.mem_toList.mp hf)
    obtain ⟨hlow, hhigh⟩ := Finset.mem_Ico.mp hico
    exact ⟨hlow, hhigh, hnot⟩

/-- The frames of the heap's tables and of the free pages. -/
def usedFrames (st : PageTables) : Finset ℕ :=
  Radix.tables entryFrame (frameWord st.heapSlots.mem) st.heapSlots.frame 3 ∪
    (st.supply.map (· / pageSize)).toFinset

theorem usedFrames_of_table {path : List (Fin 512)} {t : ℕ} (hlen : path.length ≤ 3)
    (ht : st.heapSlots.tableAt path = some t) : t ∈ usedFrames st := by
  rw [usedFrames, Finset.mem_union]
  exact .inl (Radix.mem_tables hlen ht)

theorem usedFrames_of_supply {page : ℕ} (hp : page ∈ st.supply) :
    page / pageSize ∈ usedFrames st := by
  rw [usedFrames, Finset.mem_union, List.mem_toFinset]
  exact .inr (List.mem_map.mpr ⟨page, hp, rfl⟩)

theorem card_usedFrames (hlen : st.supply.length ≤ 1) : (usedFrames st).card ≤ 2 ^ 28 := by
  have htables : (Radix.tables entryFrame (frameWord st.heapSlots.mem) st.heapSlots.frame 3).card ≤
      ∑ k ∈ Finset.range 4, 512 ^ k := by
    simpa using @Radix.card_tables_le _ (Fin 512) _ entryFrame (frameWord st.heapSlots.mem)
      st.heapSlots.frame 3 _ _
  have hsum : ∑ k ∈ Finset.range 4, 512 ^ k < 2 ^ 28 := by decide
  have hsupply : (st.supply.map (· / pageSize)).toFinset.card ≤ 1 :=
    (List.toFinset_card_le _).trans (by simpa using hlen)
  have hunion := Finset.card_union_le (Radix.tables entryFrame (frameWord st.heapSlots.mem)
    st.heapSlots.frame 3) (st.supply.map (· / pageSize)).toFinset
  exact hunion.trans (by omega)

/-- There are many more pages than tables. -/
theorem exists_freed (hb : Backing st top) (hlen : st.supply.length ≤ 1) :
    ∃ freed, FreshSupply (st.heapSlots.withSupply (freed ++ st.supply)) ∧ 0 ∉ freed ∧
      2 ^ 30 ≤ freed.length := by
  have hcard := card_usedFrames hlen
  obtain ⟨frames, hnodup, hmany, hframes⟩ := @exists_unused (usedFrames st) (2 ^ 31) (2 ^ 30)
    (by omega)
  have hpage (page : ℕ) (hp : page ∈ frames.map (· * pageSize)) : page ≠ 0 ∧ pageSize ∣ page ∧
      page < 2 ^ 52 ∧ page / pageSize ∉ usedFrames st := by
    obtain ⟨f, hf, rfl⟩ := List.mem_map.mp hp
    obtain ⟨hpos, hlt, hnot⟩ := hframes f hf
    refine ⟨?_, Nat.dvd_mul_left _ _, ?_, ?_⟩
    · simp only [pageSize]
      omega
    · simp only [pageSize]
      omega
    · rwa [Nat.mul_div_cancel f (by decide)]
  have hsupply : st.supply.Nodup := by
    have hself : st.supply.filter (· ≠ 0) = st.supply := by
      refine List.filter_eq_self.mpr fun page hp => decide_eq_true fun h0 => hb.nonzero (h0 ▸ hp)
    exact hself ▸ hb.fresh.nodup
  refine ⟨frames.map (· * pageSize), ⟨?_, fun page hp hne => ?_⟩, fun h0 => (hpage 0 h0).1 rfl,
    by rwa [List.length_map]⟩
  · refine List.Nodup.filter _ (List.nodup_append.mpr ⟨hnodup.map ?_, hsupply, ?_⟩)
    · exact fun f g hfg => Nat.eq_of_mul_eq_mul_right (by decide) hfg
    · rintro page hp _ hs rfl
      exact (hpage page hp).2.2.2 (usedFrames_of_supply hs)
  · rcases List.mem_append.mp hp with hp | hp
    · obtain ⟨-, hdvd, hlt, hnot⟩ := hpage page hp
      exact ⟨hdvd, hlt, fun p hlen ht => hnot (usedFrames_of_table hlen ht)⟩
    · exact hb.fresh.fresh page hp hne

/-- A block that is in the heap has a size from which an extension is computed without overflow. -/
theorem fits_extension {h : Heap} {b : Block} (hs : Shows h l) (hb : b ∈ l) (hfits : size ≤ b.size) :
    size + headerSize ≤ extensionBytes size := by
  have hbounds := hs.tiles.bounds hb
  have hstop := hs.stop_lt hb
  have hbase : pageSize ≤ heapBase := by decide
  simp only [Block.stop] at hbounds hstop
  exact le_extensionBytes (by omega)

/-- With enough free pages a request is refused only if its size plus a header overflows. -/
theorem kmalloc_of_enough (hg : Good σ.heap l) (hp : Placed σ) (hn : n ≠ 0)
    (hfind : findFreeBlock σ.heap (alignUpSize n heapAlignment) = .ok 0)
    (hx : Extends σ.heap (alignUpSize n heapAlignment))
    (henough : 4 * (extensionBytes (alignUpSize n heapAlignment) / pageSize) ≤
      σ.tables.supply.length) :
    ∃ σ' p, σ.kmalloc n = .ok (σ', p) ∧ (p ≠ 0 ↔
      alignUpSize n heapAlignment + headerSize ≤ extensionBytes (alignUpSize n heapAlignment)) := by
  obtain ⟨σ₁, ret, i, hext, he⟩ := heapExtend_extension hp hx
  obtain rfl := he.enough henough
  obtain ⟨pages, hpages⟩ := he.refines
  obtain ⟨h₁, ret, hext', hres⟩ := heapExtend_extended pages hg hx
  obtain ⟨rfl, rfl⟩ := Prod.mk.inj (Except.ok.inj (hext'.symm.trans hpages))
  cases hres with
  | failed hret => exact absurd rfl hret
  | linked l₁ hg₁ _ _ _ hroom =>
    have hfind₁ := findFreeBlock_eq (alignUpSize n heapAlignment) hg₁.shows
    rw [kmalloc_of_extended hn hfind hext, hfind₁]
    refine ⟨_, _, rfl, ?_⟩
    cases hblock : l₁.find? fun b => b.fits (alignUpSize n heapAlignment) with
    | none =>
      refine ⟨fun hne => absurd rfl hne, fun hle => ?_⟩
      obtain ⟨c, hc, hfree, hbytes⟩ := hroom
      have hnone := List.find?_eq_none.mp hblock c hc
      exact absurd (by simp [Block.fits, hfree]; omega) hnone
    | some b =>
      have hb := List.mem_of_find?_eq_some hblock
      have hfits : b.fits (alignUpSize n heapAlignment) = true := by
        simpa using List.find?_some hblock
      have hsize : alignUpSize n heapAlignment ≤ b.size := by
        simp only [Block.fits, Bool.and_eq_true, decide_eq_true_eq] at hfits
        exact hfits.2
      refine ⟨fun _ => fits_extension hg₁.shows hb hsize, fun _ => ?_⟩
      have hpos := hg₁.shows.addr_pos hb
      change (σ₁.take b.addr (alignUpSize n heapAlignment)).2 ≠ 0
      rw [take_snd hpos.ne']
      omega

theorem extension_pages_le (hp : Placed σ) (hx : Extends σ.heap size) :
    4 * (extensionBytes size / pageSize) ≤ 2 ^ 30 := by
  have hend := ((extends_iff hp.lt).mp hx).2
  have hlow := hp.low
  simp only [heapBase, pageSize] at *
  omega

/-- Unless the first page fails, it stays mapped behind the heap. -/
theorem firstFails_of_unmapped (hp : Placed σ) (hx : Extends σ.heap size)
    (hext : σ.heapExtend size = .ok (σ', ret))
    (hunmapped : σ'.tables.leafOf σ.heap.heapEnd = none) : FirstFails σ := by
  obtain ⟨σ₁, r, hpage, -⟩ := hp.backed hx
  refine ⟨σ₁, r, hpage, fun hzero => ?_⟩
  obtain ⟨σ₂, ret₂, i, hext₂, he⟩ := heapExtend_extension hp hx
  obtain ⟨rfl, rfl⟩ := Prod.mk.inj (Except.ok.inj (hext₂.symm.trans hext))
  have hi := he.first ⟨σ₁, by rw [hpage, hzero]⟩
  have hmapped := (he.backing.mapped σ.heap.heapEnd hp.low hp.lt).mpr (by
    simp only [pageSize]
    omega)
  rw [hunmapped] at hmapped
  cases hmapped

theorem harmless_iff (hg : Good σ.heap l) (hp : Placed σ) (htaken : σ.taken = []) (hn : n ≠ 0)
    (hfind : findFreeBlock σ.heap (alignUpSize n heapAlignment) = .ok 0)
    (hext : σ.heapExtend (alignUpSize n heapAlignment) = .ok (σ', ret)) (hret : ret ≠ 0) :
    Harmless σ σ' n ↔ FirstFails σ ∧
      alignUpSize n heapAlignment + headerSize ≤ extensionBytes (alignUpSize n heapAlignment) := by
  have hx : Extends σ.heap (alignUpSize n heapAlignment) := by
    by_contra hx
    exact hret (heapExtend_of_overflow hx hext)
  have hretry (hfirst : FirstFails σ) (freed : List ℕ)
      (hfresh : FreshSupply (σ'.refill freed).tables.heapSlots) (hzero : 0 ∉ freed)
      (henough : 4 * (extensionBytes (alignUpSize n heapAlignment) / pageSize) ≤
        (σ'.refill freed).tables.supply.length) :
      ∃ σ'' p, (σ'.refill freed).kmalloc n = .ok (σ'', p) ∧ (p ≠ 0 ↔
        alignUpSize n heapAlignment + headerSize ≤
          extensionBytes (alignUpSize n heapAlignment)) := by
    obtain ⟨hheap, hp', -, -⟩ := hp.first_failed hx hfirst hext
    have hsame : (σ'.refill freed).heap = σ.heap := hheap
    have hnonzero : 0 ∉ freed ++ σ'.tables.supply := fun h0 =>
      (List.mem_append.mp h0).elim hzero hp'.backing.nonzero
    have hp'' : Placed (σ'.refill freed) :=
      hp'.withTables (hp'.backing.withSupply hfresh hnonzero)
    exact kmalloc_of_enough (hsame ▸ hg) hp'' hn (hsame ▸ hfind) (hsame ▸ hx) henough
  constructor
  · intro hh
    have hfirst := firstFails_of_unmapped hp hx hext (hh.unmapped _ le_rfl hp.lt)
    refine ⟨hfirst, ?_⟩
    obtain ⟨-, hp', hlen, -⟩ := hp.first_failed hx hfirst hext
    obtain ⟨freed, hfresh, hzero, hmany⟩ := exists_freed hp'.backing hlen
    have henough : 4 * (extensionBytes (alignUpSize n heapAlignment) / pageSize) ≤
        (σ'.refill freed).tables.supply.length := by
      have hle := extension_pages_le hp hx
      change _ ≤ (freed ++ σ'.tables.supply).length
      rw [List.length_append]
      omega
    obtain ⟨σ₁, p₁, hm₁, hne⟩ := hh.retry freed hfresh hzero henough
    obtain ⟨σ₂, p₂, hm₂, hiff⟩ := hretry hfirst freed hfresh hzero henough
    obtain ⟨-, rfl⟩ := Prod.mk.inj (Except.ok.inj (hm₁.symm.trans hm₂))
    exact hiff.mp hne
  · rintro ⟨hfirst, hroom⟩
    obtain ⟨hheap, hp', -, hback⟩ := hp.first_failed hx hfirst hext
    rw [htaken] at hback
    refine ⟨fun virt hvirt hlt => ?_, fun page hpage => (hback page hpage).resolve_left
      List.not_mem_nil, fun l hs => hheap ▸ hs, congrArg Heap.heapEnd hheap,
      fun freed hfresh hzero henough => ?_⟩
    · have hmapped := hp'.backing.mapped virt (hp.low.trans hvirt) hlt
      rw [hheap] at hmapped
      exact Option.not_isSome_iff_eq_none.mp fun hsome => absurd (hmapped.mp hsome) (by omega)
    · obtain ⟨σ₁, p, hm, hiff⟩ := hretry hfirst freed hfresh hzero henough
      exact ⟨σ₁, p, hm, hiff.mpr hroom⟩

end

end BackedHeap

/-- In every state of every run whose extensions, where they fail, fail at the first page: a
`kmalloc` whose extension fails returns a null pointer, and that is harmless exactly if the first
page failed and the size with a header does not overflow. -/
theorem heap_failure_harmless_iff {σ : BackedSystem} (h : σ.Reachable) {n : ℕ} (hn : 0 < n)
    {σ' : BackedHeap} {ret : ℤ}
    (hfind : findFreeBlock σ.memory.clearLog.heap (alignUpSize n heapAlignment) = .ok 0)
    (hext : σ.memory.clearLog.heapExtend (alignUpSize n heapAlignment) = .ok (σ', ret))
    (hret : ret ≠ 0) :
    σ.memory.clearLog.kmalloc n = .ok (σ', 0) ∧
      (Harmless σ.memory.clearLog σ' n ↔ FirstFails σ.memory.clearLog ∧
        alignUpSize n heapAlignment + headerSize ≤
          extensionBytes (alignUpSize n heapAlignment)) := by
  obtain ⟨hc, hp⟩ := h.placed
  obtain ⟨l, hg, -⟩ := hc.good
  have hp₀ : Placed σ.memory.clearLog := hp.congr rfl rfl
  exact ⟨BackedHeap.kmalloc_of_failed hn.ne' hfind hext hret,
    harmless_iff (HeapSystem.clearLog_good hg) hp₀ rfl hn.ne' hfind hext hret⟩

/-! ### A run with few pages -/

/-- The first free page, which is blank, becomes the table behind word `i` of table `t`. -/
def PageTables.addTable (st : PageTables) (t : ℕ) (i : Fin 512) : PageTables :=
  st.takePage.1.setWord (t * pageSize + 8 * i) (makeTableEntry st.takePage.2)

/-- Tables down to the one for the first pages of the heap, which is empty. -/
def heapTables (supply : List ℕ) : PageTables :=
  (((emptyTables.withSupply ([2 * pageSize, 3 * pageSize, 4 * pageSize] ++ supply)).addTable 1
    (indexAt heapBase 39)).addTable 2 (indexAt heapBase 30)).addTable 3 (indexAt heapBase 21)

/-- The first PML4 entry leads to a table of the firmware, with a page of 1 GiB. -/
def PageTables.withFirmware (st : PageTables) : PageTables :=
  (st.setWord (1 * pageSize + 8 * (0 : Fin 512)) (makeTableEntry (64 * pageSize))).setWord
    (64 * pageSize + 8 * (0 : Fin 512)) 0x83

/-- The tables are in the page frames up to `t`, the last of which is blank like all pages behind
it, and nothing is mapped. -/
structure FirstTables (st : PageTables) (t : ℕ) : Prop where
  tree : TreeTables st
  fresh : FreshSupply st
  upTo : ∀ p f, p.length ≤ 3 → st.tableAt p = some f → f ≤ t
  blank : ∀ f j, t ≤ f → frameWord st.mem f j = 0
  unmapped : ∀ virt, st.leafOf virt = none

section
variable {st : PageTables} {supply rest : List ℕ} {path : List (Fin 512)} {i : Fin 512} {t : ℕ}

theorem emptyTables_first (hnodup : supply.Nodup)
    (hpages : ∀ page ∈ supply, pageSize ∣ page ∧ page < 2 ^ 52 ∧ pageSize < page) :
    FirstTables (emptyTables.withSupply supply) 1 := by
  refine ⟨emptyTables_tree.withSupply supply, emptyTables_fresh hnodup hpages,
    fun p f _ hp => (emptyTables_path hp).2.le, fun f j _ => emptyTables_word f j, fun virt => ?_⟩
  change Radix.leaf entryFrame (frameWord emptyTables.mem) emptyTables.frame _ _ = none
  rw [tablePath, Radix.leaf, Radix.table, emptyTables_word]
  rfl

/-- A blank page becomes a table; the pages behind it are blank still. -/
theorem FirstTables.addTable (h : FirstTables st t) (hsupply : st.supply = (t + 1) * pageSize :: rest)
    (hp : st.tableAt path = some t) (hd : path.length < 3) :
    FirstTables (st.addTable t i) (t + 1) ∧ (st.addTable t i).supply = rest ∧
      (st.addTable t i).tableAt (path ++ [i]) = some (t + 1) := by
  have hne : (t + 1) * pageSize ≠ 0 := by
    simp only [pageSize]
    omega
  have hdiv : (t + 1) * pageSize / pageSize = t + 1 := Nat.mul_div_cancel _ (by decide)
  obtain ⟨-, hlt, hfresh⟩ := h.fresh.fresh _ (by rw [hsupply]; simp) hne
  rw [hdiv] at hfresh
  have hf : t + 1 < 2 ^ 40 := by
    simp only [pageSize] at hlt
    omega
  have hpage : st.takePage.2 = (t + 1) * pageSize := by simp [PageTables.takePage, hsupply]
  have hblank : Cleared (t + 1) 512 st.takePage.1 st.takePage.1 :=
    ⟨rfl, rfl, fun _ h => .inl h, fun _ _ _ => rfl, fun j _ => h.blank _ j (Nat.le_succ t)⟩
  have hins := hblank.inserted (i := i) hp hd (by rw [h.blank t i le_rfl]; rfl) hf hfresh
  rw [← hpage] at hins
  change Inserted st (st.addTable t i) path i t (t + 1) at hins
  obtain ⟨hg, hnew⟩ := hins.grows h.tree h.fresh hsupply hne
  have hrest : (st.addTable t i).supply = rest := by rw [hins.supply, hsupply]; rfl
  obtain ⟨used, hused, -, htables⟩ := (hins.feeds h.tree h.fresh hsupply hne).uses
  refine ⟨⟨hg.shaped, hg.fresh, fun p f hlen hpf => ?_, fun f j hf => ?_, fun virt => ?_⟩, hrest,
    hnew⟩
  · rcases htables p f hlen hpf with hold | hin
    · exact Nat.le_succ_of_le (h.upTo p f hlen hold)
    · -- The pages that are used up are the one in front of the rest.
      obtain rfl : used = [(t + 1) * pageSize] := by
        rw [hrest, hsupply] at hused
        have hcancel : [(t + 1) * pageSize] = used := List.append_cancel_right hused
        exact hcancel.symm
      simp only [List.mem_singleton] at hin
      exact (Nat.eq_of_mul_eq_mul_right (by decide) hin).le
  · exact (frameWord_store_of_ne (.inl (by omega))).trans (h.blank f j (by omega))
  · exact (hg.leaf _ _ rfl).trans (h.unmapped virt)

theorem heapTables_first
    (hnodup : ([2 * pageSize, 3 * pageSize, 4 * pageSize] ++ supply).Nodup)
    (hpages : ∀ page ∈ [2 * pageSize, 3 * pageSize, 4 * pageSize] ++ supply,
      pageSize ∣ page ∧ page < 2 ^ 52 ∧ pageSize < page) :
    FirstTables (heapTables supply) 4 ∧ (heapTables supply).supply = supply := by
  have ht₀ : emptyTables.tableAt [] = some 1 := congrArg some (by decide)
  obtain ⟨hb₁, hs₁, ht₁⟩ := (emptyTables_first hnodup hpages).addTable
    (i := indexAt heapBase 39) rfl ht₀ (by decide)
  obtain ⟨hb₂, hs₂, ht₂⟩ := hb₁.addTable (i := indexAt heapBase 30) hs₁ ht₁ (by decide)
  obtain ⟨hb₃, hs₃, -⟩ := hb₂.addTable (i := indexAt heapBase 21) hs₂ ht₂ (by decide)
  exact ⟨hb₃, hs₃⟩

/-- The firmware's table and its large page are no concern of the heap. -/
theorem FirstTables.backing (h : FirstTables st t) (hroot : st.frame = 1) (ht : t < 64)
    (hzero : 0 ∉ st.supply) : BackedHeap.Backing st.withFirmware heapBase := by
  have hb : BackedHeap.Backing st heapBase := by
    refine ⟨h.tree.heapSlots, h.fresh.heapSlots h.tree, hzero, fun virt hvirt _ => ?_⟩
    rw [h.unmapped virt]
    exact iff_of_false nofun (Nat.not_lt.mpr hvirt)
  have hlow : ¬ st.HeapWord 1 0 := fun hw => absurd (hw.2 hroot.symm) (by decide)
  have hother : ¬ st.HeapWord 64 0 := by
    rintro ⟨⟨p, hp, hat⟩, -⟩
    have := h.upTo p 64 hp (h.tree.heapSlots_tableAt_some hp hat)
    omega
  have hkeeps : KeepsWords st.HeapWord st st.withFirmware :=
    ((KeepsWords.refl _ st).setWord hlow).setWord hother
  exact hb.of_same hkeeps.same hkeeps.supply

end

/-- The kernel starts with `k` free pages, the first of which the heap takes at once, and with the
firmware's large page. -/
def fewPages (k : ℕ) : BackedHeap :=
  ⟨bootHeap fun _ => 0,
    (heapTables ((List.range k).map fun i => (i + 5) * pageSize)).withFirmware, []⟩

theorem fewPages_reachable {k : ℕ} {memory : BackedHeap} (hk : k = 1 ∨ k = 2)
    (hinit : BackedHeap.heapInit (fewPages k) = .ok memory) : (BackedSystem.mk memory []).Reachable := by
  have hnodup : ([2 * pageSize, 3 * pageSize, 4 * pageSize] ++
      (List.range k).map fun i => (i + 5) * pageSize).Nodup := by
    rcases hk with rfl | rfl <;> decide
  have hpages : ∀ page ∈ [2 * pageSize, 3 * pageSize, 4 * pageSize] ++
      (List.range k).map (fun i => (i + 5) * pageSize),
      pageSize ∣ page ∧ page < 2 ^ 52 ∧ pageSize < page := by
    rcases hk with rfl | rfl <;> decide
  obtain ⟨hfirst, hsupply⟩ := heapTables_first hnodup hpages
  have hroot : emptyTables.frame = 1 := by decide
  refine .start ⟨⟨_, _, _, hfirst.backing hroot (by decide) ?_, hinit⟩, rfl⟩
  rw [hsupply]
  rcases hk with rfl | rfl <;> decide

/-- With one page, nothing is left when the heap is full. -/
theorem fewPages_one : ∃ σ, BackedHeap.heapInit (fewPages 1) = .ok σ ∧
    findFreeBlock σ.clearLog.heap 5008 = .ok 0 ∧
    (σ.clearLog.heapExtend 5008).map Prod.snd = .ok (-enomem) ∧
    (σ.clearLog.backPage σ.clearLog.heap.heapEnd).map Prod.snd = .ok (-enomem) := by
  have hrun : (BackedHeap.heapInit (fewPages 1)).map (fun σ =>
      (findFreeBlock σ.clearLog.heap 5008, (σ.clearLog.heapExtend 5008).map Prod.snd,
        (σ.clearLog.backPage σ.clearLog.heap.heapEnd).map Prod.snd)) =
      .ok (.ok 0, .ok (-enomem), .ok (-enomem)) := by decide +kernel
  obtain ⟨σ, hinit, hσ⟩ := map_ok hrun
  obtain ⟨hfind, hrest⟩ := Prod.mk.inj hσ
  exact ⟨σ, hinit, hfind, Prod.mk.inj hrest⟩

theorem heap_failure_harmless_iff_exhausted : ∃ σ : BackedSystem, σ.Reachable ∧ ∃ σ',
    σ.memory.clearLog.kmalloc 5000 = .ok (σ', 0) ∧ Harmless σ.memory.clearLog σ' 5000 := by
  have hsize : alignUpSize 5000 heapAlignment = 5008 := by decide
  obtain ⟨σ, hinit, hfind, hext, hpage⟩ := fewPages_one
  obtain ⟨⟨σ', ret⟩, hext, rfl⟩ := map_ok hext
  obtain ⟨⟨σ₁, ret₁⟩, hpage, rfl⟩ := map_ok hpage
  obtain ⟨hm, hiff⟩ := heap_failure_harmless_iff (fewPages_reachable (.inl rfl) hinit)
    (n := 5000) (by decide) (by rw [hsize]; exact hfind) (by rw [hsize]; exact hext) (by decide)
  exact ⟨⟨σ, []⟩, fewPages_reachable (.inl rfl) hinit, σ', hm,
    hiff.mpr ⟨⟨σ₁, _, hpage, by decide⟩, by decide⟩⟩

/-- With two pages, the heap maps the second behind its end and finds none for the rest of the
extension. The page stays mapped, and the same request fails again after eight more pages have been
freed. -/
theorem heap_failure_leaves_page : ∃ σ : BackedSystem, σ.Reachable ∧ ∃ σ',
    σ.memory.clearLog.kmalloc 5000 = .ok (σ', 0) ∧
    (σ'.tables.leafOf σ.memory.heap.heapEnd).isSome = true ∧
    ((σ'.refill ((List.range 8).map fun i => (i + 10) * pageSize)).kmalloc 5000).map Prod.snd =
      .ok 0 ∧ ¬ Harmless σ.memory.clearLog σ' 5000 := by
  have hsize : alignUpSize 5000 heapAlignment = 5008 := by decide
  have hrun : (BackedHeap.heapInit (fewPages 2)).map (fun σ =>
      (findFreeBlock σ.clearLog.heap 5008,
        (σ.clearLog.heapExtend 5008).map fun r => (r.2, (r.1.tables.leafOf σ.heap.heapEnd).isSome,
          ((r.1.refill ((List.range 8).map fun i => (i + 10) * pageSize)).kmalloc 5000).map
            Prod.snd))) =
      .ok (.ok 0, .ok (-enomem, true, .ok 0)) := by decide +kernel
  obtain ⟨σ, hinit, hσ⟩ := map_ok hrun
  obtain ⟨hfind, hσ⟩ := Prod.mk.inj hσ
  obtain ⟨⟨σ', ret⟩, hext, hσ'⟩ := map_ok hσ
  obtain ⟨rfl, hσ'⟩ := Prod.mk.inj hσ'
  obtain ⟨hmapped, hretry⟩ := Prod.mk.inj hσ'
  rw [← hsize] at hfind hext
  have hm := BackedHeap.kmalloc_of_failed (n := 5000) (by decide) hfind hext (by decide)
  have hσ := fewPages_reachable (.inr rfl) hinit
  refine ⟨⟨σ, []⟩, hσ, σ', hm, hmapped, hretry, fun hh => ?_⟩
  have hnone := hh.unmapped σ.heap.heapEnd le_rfl hσ.placed.2.lt
  rw [hnone] at hmapped
  cases hmapped

end Tianole.Mm
