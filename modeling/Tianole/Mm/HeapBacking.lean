import Tianole.Mm.HeapSizes
import Tianole.Mm.HeapSlots

/-! The heap of `mm/heap.c` over the page tables and the page allocator: `map_heap_range` with the
calls that it makes. The free list of the allocator is the list of pages that it would return. -/
namespace Tianole.Mm
open Memory Word Runs

/-- The heap, the page tables, and the pages that `alloc_page` has returned to `map_heap_range`.
Pages behind the heap are neither tables nor free, so the memory of the heap is kept apart. -/
structure BackedHeap where
  heap : Heap
  tables : PageTables
  taken : List ℕ

/-- `free_page`: the page becomes the first of the free list. -/
def PageTables.freePage (st : PageTables) (page : ℕ) : Except Stop PageTables :=
  if page &&& (pageSize - 1) ≠ 0 ∨ page = 0 then .error (.panic .invalidPhysicalPageFree)
  else .ok (st.withSupply (page :: st.supply))

namespace BackedHeap

/-- The body of the loop of `map_heap_range`. -/
def backPage (σ : BackedHeap) (current : ℕ) : Except Stop (BackedHeap × ℤ) :=
  let (tables, page) := σ.tables.takePage
  if page = 0 then .ok ({ σ with tables := tables }, -enomem)
  else
    let contents := fun x => tables.mem (page + (x - current))
    let (tables, ret) := mapPage tables current page (pageWritable ||| pageNoExecute)
    let taken := page :: σ.taken
    if ret ≠ 0 then (tables.freePage page).map fun tables => (⟨σ.heap, tables, taken⟩, ret)
    else .ok (⟨σ.heap.mapPage current contents, tables, taken⟩, 0)

def mapLoop (last : ℕ) : ℕ → BackedHeap → ℕ → Except Stop (BackedHeap × ℤ)
  | 0, σ, current => if current < last then .error .hang else .ok (σ, 0)
  | n + 1, σ, current =>
      if current < last then
        (backPage σ current).bind fun r =>
          if r.2 ≠ 0 then .ok r else mapLoop last n r.1 (wrap64 (current + pageSize))
      else .ok (σ, 0)

def mapHeapRange (σ : BackedHeap) (start bytes : ℕ) : Except Stop (BackedHeap × ℤ) :=
  mapLoop (wrap64 (start + bytes)) bytes σ start

def heapExtend (σ : BackedHeap) (minSize : ℕ) : Except Stop (BackedHeap × ℤ) := do
  let bytes := alignUpSize (wrap64 (minSize + headerSize)) pageSize
  let block := σ.heap.heapEnd
  let (σ, ret) ← σ.mapHeapRange σ.heap.heapEnd bytes
  if ret ≠ 0 then pure (σ, ret)
  else pure ({ σ with heap := mergePrev (linkBlock σ.heap block bytes) block }, 0)

/-- The end of `kmalloc`, with the block that was found. -/
def take (σ : BackedHeap) (block size : ℕ) : BackedHeap × ℕ :=
  ({ σ with heap := (takeBlock σ.heap block size).1 }, (takeBlock σ.heap block size).2)

def kmalloc (σ : BackedHeap) (size : ℕ) : Except Stop (BackedHeap × ℕ) :=
  if size = 0 then .ok (σ, 0)
  else do
    let size := alignUpSize size heapAlignment
    let block ← findFreeBlock σ.heap size
    if block = 0 then
      let (σ, ret) ← σ.heapExtend size
      if ret ≠ 0 then pure (σ, 0)
      else
        let block ← findFreeBlock σ.heap size
        pure (σ.take block size)
    else pure (σ.take block size)

/-- What changes nothing but the heap. -/
def onHeap (σ : BackedHeap) (f : Heap → Heap) : BackedHeap := { σ with heap := f σ.heap }

def heapSelftest (σ : BackedHeap) : Except Stop BackedHeap := do
  let (σ, first) ← σ.kmalloc 8
  let (σ, second) ← σ.kmalloc 128
  if first = 0 ∨ second = 0 then .error (.panic .kernelHeapSelftestAllocationFailed)
  else
    let σ := σ.onHeap fun h =>
      ((h.poke first 8 selftestWord).poke second 1 0x31).poke (second + 127) 1 0x32
    if load σ.heap.mem first 8 ≠ selftestWord ∨ load σ.heap.mem second 1 ≠ 0x31 ∨
        load σ.heap.mem (second + 127) 1 ≠ 0x32 then
      .error (.panic .kernelHeapSelftestMemoryCorrupted)
    else
      let (σ, third) ← (σ.onHeap fun h => kfree h first).kmalloc 8
      if third = 0 then .error (.panic .kernelHeapSelftestReuseFailed)
      else pure (σ.onHeap fun h => kfree (kfree h third) second)

def heapInit (σ : BackedHeap) : Except Stop BackedHeap :=
  if σ.heap.heapReady then .ok σ
  else do
    let σ := σ.onHeap fun h => h.setEnd (alignUpAddr h.heapEnd pageSize)
    let (σ, ret) ← σ.heapExtend (pageSize - headerSize)
    if ret ≠ 0 then .error (.panic .kernelHeapInitializationFailed)
    else heapSelftest (σ.onHeap fun h => { h with heapReady := true })

/-! ### One page -/

/-- Tables that can be extended, which map the addresses from `heapBase` on up to `top`. Below the
PML4 entries of the heap they form a tree without large pages, and the free pages are none of these
tables; the other entries may lead to anything. -/
structure Backing (st : PageTables) (top : ℕ) : Prop where
  tree : TreeTables st.heapSlots
  fresh : FreshSupply st.heapSlots
  nonzero : 0 ∉ st.supply
  mapped : ∀ virt, heapBase ≤ virt → virt < 2 ^ 64 → ((st.leafOf virt).isSome = true ↔ virt < top)

section
variable {σ σ' : BackedHeap} {st st' : PageTables} {current page top : ℕ}

theorem canonical_of_heapBase {virt : ℕ} (h : heapBase ≤ virt) (hlt : virt < 2 ^ 64) :
    Canonical virt := .inr ⟨Nat.le_trans (by decide) h, hlt⟩

/-- Addresses of the heap are looked up below its entries. -/
theorem Backing.mapped_slots (hb : Backing st top) {virt : ℕ} (hvirt : heapBase ≤ virt)
    (hlt : virt < 2 ^ 64) : (st.heapSlots.leafOf virt).isSome = true ↔ virt < top := by
  rw [heapSlots_leafOf hb.tree (heapSlot_le hvirt hlt)]
  exact hb.mapped virt hvirt hlt

theorem Backing.of_slots (htree : TreeTables st.heapSlots) (hfresh : FreshSupply st.heapSlots)
    (hnonzero : 0 ∉ st.supply) (hmapped : ∀ virt, heapBase ≤ virt → virt < 2 ^ 64 →
      ((st.heapSlots.leafOf virt).isSome = true ↔ virt < top)) : Backing st top := by
  refine ⟨htree, hfresh, hnonzero, fun virt hvirt hlt => ?_⟩
  rw [← heapSlots_leafOf htree (heapSlot_le hvirt hlt)]
  exact hmapped virt hvirt hlt

theorem freePage_eq (hdvd : pageSize ∣ page) (hne : page ≠ 0) :
    st.freePage page = .ok (st.withSupply (page :: st.supply)) := by
  refine if_neg ?_
  rw [land_pageOffset_of_dvd hdvd]
  simpa using hne

theorem mapFlags_heap : MapFlags (pageWritable ||| pageNoExecute) := by
  simp [MapFlags]

/-- The outcomes of one round: a mapped page, or no page left and the one that was taken given
back. -/
inductive Backed (σ : BackedHeap) (current : ℕ) (σ' : BackedHeap) : ℤ → Prop
  | failed {ret : ℤ} : ret ≠ 0 → σ'.heap = σ.heap → Backing σ'.tables current →
      σ.tables.supply.length ≤ 3 → σ'.tables.supply.length ≤ 1 →
      (∀ p ∈ σ'.taken, p ∈ σ.taken ∨ p ∈ σ'.tables.supply) → Backed σ current σ' ret
  | mapped (contents : ℕ → UInt8) : σ'.heap = σ.heap.mapPage current contents →
      Backing σ'.tables (current + pageSize) →
      σ.tables.supply.length ≤ σ'.tables.supply.length + 4 → Backed σ current σ' 0

/-- Leaves outside one page stay, so what is mapped changes on that page only. -/
theorem mapped_of_leaf (hlow : heapBase ≤ current) (hlt : current + pageSize ≤ 2 ^ 64)
    (hdvd : pageSize ∣ current)
    (hold : ∀ virt, heapBase ≤ virt → virt < 2 ^ 64 →
      ((st.leafOf virt).isSome = true ↔ virt < current))
    (hother : ∀ u, Canonical u → Canonical current → u / pageSize ≠ current / pageSize →
      st'.leafOf u = st.leafOf u)
    (htop : (st'.leafOf current).isSome = true ∧ top = current + pageSize ∨
      st'.leafOf current = none ∧ top = current) {virt : ℕ} (hvirt : heapBase ≤ virt)
    (hvlt : virt < 2 ^ 64) : (st'.leafOf virt).isSome = true ↔ virt < top := by
  have hcurrent : current < 2 ^ 64 := by
    simp only [pageSize] at hlt
    omega
  by_cases hpage : virt / pageSize = current / pageSize
  · have hin : current ≤ virt ∧ virt < current + pageSize := by
      simp only [pageSize] at *
      omega
    rw [leafOf_congr hpage]
    rcases htop with ⟨hsome, rfl⟩ | ⟨hnone, rfl⟩
    · exact ⟨fun _ => hin.2, fun _ => hsome⟩
    · rw [hnone]
      exact ⟨fun h => absurd h (by simp), fun h => by omega⟩
  · rw [hother virt (canonical_of_heapBase hvirt hvlt) (canonical_of_heapBase hlow hcurrent) hpage,
      hold virt hvirt hvlt]
    rcases htop with ⟨-, rfl⟩ | ⟨-, rfl⟩
    · simp only [pageSize] at *
      omega
    · exact Iff.rfl

/-- The page after the mapped ones is mapped to a free page, unless there are too few of them for
the tables that it needs. -/
theorem Backing.mapPage {rest : List ℕ} (hb : Backing st current)
    (hsupply : st.supply = page :: rest) (hlow : heapBase ≤ current)
    (hlt : current + pageSize ≤ 2 ^ 64) (hdvd : pageSize ∣ current) :
    (∃ st₁, mapPage (st.withSupply rest) current page (pageWritable ||| pageNoExecute) = (st₁, 0) ∧
      Backing st₁ (current + pageSize) ∧ rest.length ≤ st₁.supply.length + 3) ∨
    ∃ st₁, mapPage (st.withSupply rest) current page (pageWritable ||| pageNoExecute) =
        (st₁, -enomem) ∧ st₁.supply = [] ∧ rest.length ≤ 2 ∧
      Backing (st₁.withSupply [page]) current := by
  have hcurrent : current < 2 ^ 64 := by
    simp only [pageSize] at hlt
    omega
  have hne : page ≠ 0 := fun h0 => hb.nonzero (by rw [hsupply, h0]; simp)
  have hzero : 0 ∉ rest := fun h0 => hb.nonzero (by rw [hsupply]; simp [h0])
  have hslots : st.heapSlots.supply = page :: rest := hsupply
  obtain ⟨hpage, hphys, -⟩ := hb.fresh.fresh page (by rw [hslots]; simp) hne
  have hkept : FreshSupply ((st.heapSlots.withSupply rest).withSupply ([page] ++ rest)) := by
    have hsame : (st.heapSlots.withSupply rest).withSupply ([page] ++ rest) = st.heapSlots := by
      rw [List.singleton_append, ← hslots]
      rfl
    exact hsame ▸ hb.fresh
  have hrest : FreshSupply (st.heapSlots.withSupply rest) :=
    ⟨hkept.nodup.sublist ((List.sublist_append_right _ _).filter _),
      fun p hp => hkept.fresh p (List.mem_append_right _ hp)⟩
  have htree₀ : TreeTables (st.withSupply rest).heapSlots := hb.tree.withSupply rest
  -- The call is made below the heap's entries, where the tables are a tree.
  obtain ⟨htree, hout, hother, huses, hshort⟩ := mapPage_spec htree₀ hrest hdvd hpage hphys
    mapFlags_heap
  rw [heapSlots_mapPage htree₀ hrest (heapSlot_le hlow hcurrent)] at htree hout hother huses hshort
  generalize Mm.mapPage (st.withSupply rest) current page (pageWritable ||| pageNoExecute) = r
    at htree hout hother huses hshort ⊢
  obtain ⟨st₁, ret⟩ := r
  dsimp only at htree hout hother huses hshort
  have hold (virt : ℕ) (hvirt : heapBase ≤ virt) (hvlt : virt < 2 ^ 64) :
      ((st.withSupply rest).heapSlots.leafOf virt).isSome = true ↔ virt < current :=
    hb.mapped_slots hvirt hvlt
  cases hout with
  | mapped hnone hnew =>
    have hfresh : FreshSupply st₁.heapSlots := @Uses.fresh _ _ [] _ huses hrest
    obtain ⟨used, hused, hlen, -⟩ := huses
    change rest = used ++ st₁.supply at hused
    refine .inl ⟨st₁, rfl, .of_slots htree hfresh (fun h0 => hzero ?_) fun virt hvirt hvlt => ?_, ?_⟩
    · rw [hused]
      exact List.mem_append_right _ h0
    · exact mapped_of_leaf hlow hlt hdvd hold hother (.inl ⟨by rw [hnew]; rfl, rfl⟩) hvirt hvlt
    · rw [hused, List.length_append]
      omega
  | alreadyMapped hsome _ =>
    exact absurd ((hold current hlow hcurrent).mp hsome) (Nat.lt_irrefl _)
  | noMemory hnone hnone' =>
    obtain ⟨hlen, hempty⟩ := (hshort rfl).resolve_left hzero
    have hfresh : FreshSupply (st₁.heapSlots.withSupply ([page] ++ st₁.heapSlots.supply)) :=
      huses.fresh hkept
    rw [hempty] at hfresh
    refine .inr ⟨st₁, rfl, hempty, hlen, .of_slots (htree.withSupply _) hfresh ?_
      fun virt hvirt hvlt => ?_⟩
    · simpa [PageTables.withSupply] using hne.symm
    · exact mapped_of_leaf hlow hlt hdvd hold hother (.inr ⟨hnone', rfl⟩) hvirt hvlt

theorem backPage_backed (hb : Backing σ.tables current) (hlow : heapBase ≤ current)
    (hlt : current + pageSize ≤ 2 ^ 64) (hdvd : pageSize ∣ current) :
    ∃ σ' ret, σ.backPage current = .ok (σ', ret) ∧ Backed σ current σ' ret := by
  unfold backPage
  cases hsupply : σ.tables.supply with
  | nil =>
    have htake : σ.tables.takePage = (σ.tables, 0) := by
      simp only [PageTables.takePage, hsupply, List.tail_nil, List.headD_nil]
      rw [← hsupply]
    rw [htake]
    refine ⟨σ, -enomem, if_pos rfl, .failed (by decide) rfl hb ?_ ?_ fun p hp => .inl hp⟩
    · simp [hsupply]
    · simp [hsupply]
  | cons page rest =>
    have hne : page ≠ 0 := fun h0 => hb.nonzero (by rw [hsupply, h0]; simp)
    have hmem : page ∈ σ.tables.supply := by rw [hsupply]; simp
    obtain ⟨hpage, -, -⟩ := hb.fresh.fresh page hmem hne
    have htake : σ.tables.takePage = (σ.tables.withSupply rest, page) := by
      simp only [PageTables.takePage, hsupply, List.tail_cons, List.headD_cons]
      rfl
    rw [htake]
    dsimp only
    rw [if_neg hne]
    rcases hb.mapPage hsupply hlow hlt hdvd with
      ⟨st₁, hmap, hb₁, hlen⟩ | ⟨st₁, hmap, hempty, hlen, hb₁⟩
    · rw [hmap]
      refine ⟨_, 0, if_neg (by simp), .mapped _ rfl hb₁ ?_⟩
      rw [hsupply, List.length_cons]
      exact Nat.succ_le_succ hlen
    · rw [hmap]
      dsimp only
      rw [if_pos (by decide), freePage_eq hpage hne, hempty]
      refine ⟨_, _, rfl, .failed (by decide) rfl hb₁ ?_ le_rfl fun p hp => ?_⟩
      · rw [hsupply, List.length_cons]
        omega
      · rcases List.mem_cons.mp hp with rfl | hp
        · exact .inr List.mem_cons_self
        · exact .inl hp

/-! ### The loop -/

/-- The loop has mapped `i` of its `j` pages: all of them if it reports success, as it does when
there are four free pages for each. -/
structure Looped (σ : BackedHeap) (current j : ℕ) (σ' : BackedHeap) (ret : ℤ) (i : ℕ) : Prop where
  le : i ≤ j
  backing : Backing σ'.tables (current + i * pageSize)
  done : ret = 0 → i = j
  enough : 4 * j ≤ σ.tables.supply.length → ret = 0
  first : 0 < j → (∃ σ₁, σ.backPage current = .ok (σ₁, 0)) → 0 < i

theorem Looped.zero (hb : Backing σ.tables current) : Looped σ current 0 σ 0 0 :=
  ⟨le_rfl, by simpa using hb, fun _ => rfl, fun _ => rfl, fun h => absurd h (Nat.lt_irrefl 0)⟩

theorem Looped.step {σ₁ : BackedHeap} {j i : ℕ} {ret : ℤ}
    (hlen : σ.tables.supply.length ≤ σ₁.tables.supply.length + 4)
    (hl : Looped σ₁ (current + pageSize) j σ' ret i) : Looped σ current (j + 1) σ' ret (i + 1) := by
  refine ⟨Nat.succ_le_succ hl.le, ?_, fun hret => congrArg (· + 1) (hl.done hret),
    fun henough => hl.enough (by omega), fun _ _ => Nat.succ_pos i⟩
  have hsum : current + (i + 1) * pageSize = current + pageSize + i * pageSize := by ring
  rw [hsum]
  exact hl.backing

/-- The page layer that the heap takes for granted gives the same answers, which matter from
`current` on. -/
def Answers (last n : ℕ) (h : Heap) (current : ℕ) (r : Heap × ℤ) : Prop :=
  ∃ pages : ℕ → PageOutcome, ∀ pages', (∀ x, current ≤ x → pages' x = pages x) →
    Mm.mapLoop pages' last n h current = .ok r

theorem Answers.done {last n : ℕ} {h : Heap} (hle : last ≤ current) :
    Answers last n h current (h, 0) :=
  ⟨fun _ => ⟨0, 0, fun _ => 0⟩, fun pages' _ => mapLoop_of_le pages' hle⟩

theorem Answers.failed {last n : ℕ} {h : Heap} {ret : ℤ} (hlt : current < last) (hret : ret ≠ 0) :
    Answers last (n + 1) h current (h, ret) := by
  refine ⟨fun _ => ⟨1, ret, fun _ => 0⟩, fun pages' hpages => ?_⟩
  rw [Mm.mapLoop, if_pos hlt, hpages current le_rfl]
  exact (if_neg (by simp)).trans (if_pos hret)

theorem Answers.mapped {last n : ℕ} {h : Heap} {r : Heap × ℤ} {contents : ℕ → UInt8}
    (hlt : current < last) (hnext : wrap64 (current + pageSize) = current + pageSize)
    (ha : Answers last n (h.mapPage current contents) (current + pageSize) r) :
    Answers last (n + 1) h current r := by
  obtain ⟨pages, hpages⟩ := ha
  refine ⟨fun x => if x = current then ⟨1, 0, contents⟩ else pages x, fun pages' hagree => ?_⟩
  rw [Mm.mapLoop, if_pos hlt, hagree current le_rfl, hnext]
  simp only [↓reduceIte, one_ne_zero, ne_eq, not_true_eq_false]
  refine hpages pages' fun x hx => (hagree x (by omega)).trans (if_neg ?_)
  simp only [pageSize] at hx
  omega

theorem mapLoop_looped {last n j : ℕ} (hb : Backing σ.tables current) (hlow : heapBase ≤ current)
    (hdvd : pageSize ∣ current) (hlast : last = current + j * pageSize) (hlt : last < 2 ^ 64)
    (hn : j ≤ n) :
    ∃ σ' ret i, mapLoop last n σ current = .ok (σ', ret) ∧ Looped σ current j σ' ret i ∧
      Answers last n σ.heap current (σ'.heap, ret) := by
  induction n generalizing σ current j with
  | zero =>
    obtain rfl : j = 0 := by omega
    exact ⟨σ, 0, 0, if_neg (by omega), .zero hb, .done (by omega)⟩
  | succ n ih =>
    cases j with
    | zero => exact ⟨σ, 0, 0, if_neg (by omega), .zero hb, .done (by omega)⟩
    | succ j =>
      have hlast' : last = current + pageSize + j * pageSize := by rw [hlast]; ring
      have hnext : wrap64 (current + pageSize) = current + pageSize := wrap64_of_lt (by omega)
      have hgo : current < last := by simp only [pageSize] at hlast'; omega
      obtain ⟨σ₁, ret, hpage, hres⟩ := backPage_backed hb hlow (by omega) hdvd
      have hloop : mapLoop last (n + 1) σ current = if ret ≠ 0 then .ok (σ₁, ret)
          else mapLoop last n σ₁ (current + pageSize) := by
        rw [mapLoop, if_pos hgo, hpage, hnext]
        rfl
      cases hres with
      | failed hret hheap hb₁ hlen _ _ =>
        refine ⟨σ₁, ret, 0, hloop.trans (if_pos hret), ⟨Nat.zero_le _, by simpa using hb₁,
          fun h0 => absurd h0 hret, fun henough => by omega, fun _ hfirst => ?_⟩, ?_⟩
        · obtain ⟨σ₂, hok⟩ := hfirst
          exact absurd (congrArg Prod.snd (Except.ok.inj (hpage.symm.trans hok))) hret
        · rw [hheap]
          exact .failed hgo hret
      | mapped contents hheap hb₁ hlen =>
        obtain ⟨σ', ret', i, hok, hl, ha⟩ := ih hb₁ (by omega)
          (Nat.dvd_add hdvd (Nat.dvd_refl _)) hlast' (by omega)
        rw [hheap] at ha
        exact ⟨σ', ret', i + 1, (hloop.trans (if_neg (by simp))).trans hok, hl.step hlen,
          ha.mapped hgo hnext⟩

/-! ### Extension -/

variable {l : List Block} {n p size : ℕ} {ret : ℤ}

/-- The tables map the heap and nothing behind it, and the heap ends on a page boundary. -/
structure Placed (σ : BackedHeap) : Prop where
  backing : Backing σ.tables σ.heap.heapEnd
  low : heapBase ≤ σ.heap.heapEnd
  lt : σ.heap.heapEnd < 2 ^ 64
  aligned : pageSize ∣ σ.heap.heapEnd

/-- The first page behind the heap cannot be mapped. -/
def FirstFails (σ : BackedHeap) : Prop :=
  ∃ σ' ret, σ.backPage σ.heap.heapEnd = .ok (σ', ret) ∧ ret ≠ 0

theorem heapExtend_of_mapped
    (hmap : σ.mapHeapRange σ.heap.heapEnd (extensionBytes size) = .ok (σ', 0)) :
    ∃ σ₁, σ.heapExtend size = .ok (σ₁, 0) ∧ σ₁.tables = σ'.tables ∧
      σ₁.heap = mergePrev (linkBlock σ'.heap σ.heap.heapEnd (extensionBytes size))
        σ.heap.heapEnd := by
  have hbytes : alignUpSize (wrap64 (size + headerSize)) pageSize = extensionBytes size := rfl
  simp only [heapExtend, hbytes, hmap, bind, Except.bind]
  rw [if_neg (by simp)]
  generalize mergePrev (linkBlock σ'.heap σ.heap.heapEnd (extensionBytes size)) σ.heap.heapEnd = h
  exact ⟨⟨h, σ'.tables, σ'.taken⟩, rfl, rfl, rfl⟩

theorem heapExtend_of_failed
    (hmap : σ.mapHeapRange σ.heap.heapEnd (extensionBytes size) = .ok (σ', ret)) (hret : ret ≠ 0) :
    σ.heapExtend size = .ok (σ', ret) := by
  have hbytes : alignUpSize (wrap64 (size + headerSize)) pageSize = extensionBytes size := rfl
  simp only [heapExtend, hbytes, hmap, bind, Except.bind]
  exact if_pos hret

/-- An extension that overflows maps nothing and reports success. -/
theorem heapExtend_of_overflow (hx : ¬ Extends σ.heap size)
    (hext : σ.heapExtend size = .ok (σ', ret)) : ret = 0 := by
  have hmap : σ.mapHeapRange σ.heap.heapEnd (extensionBytes size) = .ok (σ, 0) := by
    unfold Extends at hx
    unfold mapHeapRange
    generalize extensionBytes size = bytes at hx ⊢
    cases bytes with
    | zero => exact if_neg hx
    | succ n => exact if_neg hx
  obtain ⟨σ₁, hext₁, -⟩ := heapExtend_of_mapped hmap
  exact congrArg Prod.snd (Except.ok.inj (hext.symm.trans hext₁))

/-- An extension whose first page cannot be mapped ends there. -/
theorem heapExtend_of_first (hx : Extends σ.heap size) (hret : ret ≠ 0)
    (hpage : σ.backPage σ.heap.heapEnd = .ok (σ', ret)) : σ.heapExtend size = .ok (σ', ret) := by
  obtain ⟨fuel, hfuel⟩ := Nat.exists_eq_succ_of_ne_zero hx.pos
  refine heapExtend_of_failed ?_ hret
  unfold mapHeapRange
  rw [hfuel, mapLoop, if_pos (hfuel ▸ hx), hpage]
  exact if_pos hret

/-- The extension has mapped `i` pages behind the heap, which now ends behind them if it reports
success, and did to the heap what it does over some page layer. -/
structure Extension (σ : BackedHeap) (size : ℕ) (σ' : BackedHeap) (ret : ℤ) (i : ℕ) : Prop where
  refines : ∃ pages, Mm.heapExtend σ.heap pages size = .ok (σ'.heap, ret)
  backing : Backing σ'.tables (σ.heap.heapEnd + i * pageSize)
  done : ret = 0 → i * pageSize = extensionBytes size ∧
    σ'.heap.heapEnd = σ.heap.heapEnd + extensionBytes size
  enough : 4 * (extensionBytes size / pageSize) ≤ σ.tables.supply.length → ret = 0
  first : (∃ σ₁, σ.backPage σ.heap.heapEnd = .ok (σ₁, 0)) → 0 < i

theorem heapExtend_extension (hp : Placed σ) (hx : Extends σ.heap size) :
    ∃ σ' ret i, σ.heapExtend size = .ok (σ', ret) ∧ Extension σ size σ' ret i := by
  obtain ⟨hpos, hend⟩ := (extends_iff hp.lt).mp hx
  obtain ⟨j, hj⟩ := extensionBytes_dvd size
  have hjn : j ≤ extensionBytes size := by simp only [pageSize] at hj; omega
  have hjpos : 0 < j := by simp only [pageSize] at hj; omega
  have hdiv : extensionBytes size / pageSize = j := by simp only [pageSize] at hj ⊢; omega
  have hbytes : j * pageSize = extensionBytes size := (Nat.mul_comm j pageSize).trans hj.symm
  have hlast : σ.heap.heapEnd + extensionBytes size = σ.heap.heapEnd + j * pageSize :=
    congrArg (σ.heap.heapEnd + ·) hbytes.symm
  obtain ⟨σ', ret, i, hok, hl, pages, hpages⟩ :=
    mapLoop_looped hp.backing hp.low hp.aligned hlast hend hjn
  have hpages := hpages pages fun _ _ => rfl
  have hkeep : σ'.heap.heapEnd = σ.heap.heapEnd := by
    obtain ⟨h', ret', hok', hgr, -⟩ := mapLoop_spec (h := σ.heap) pages hlast hend hjn
    obtain ⟨rfl, -⟩ := Prod.mk.inj (Except.ok.inj (hok'.symm.trans hpages))
    exact hgr.heapEnd
  rw [← wrap64_of_lt hend] at hok hpages
  have hmap : σ.mapHeapRange σ.heap.heapEnd (extensionBytes size) = .ok (σ', ret) := hok
  have hmap' : Mm.mapHeapRange σ.heap pages σ.heap.heapEnd (extensionBytes size) =
      .ok (σ'.heap, ret) := hpages
  have henough (h : 4 * (extensionBytes size / pageSize) ≤ σ.tables.supply.length) : ret = 0 :=
    hl.enough (by rwa [hdiv] at h)
  by_cases hret : ret = 0
  · obtain rfl := hl.done hret
    rw [hret] at hmap hmap'
    obtain ⟨σ₁, hext, htables, hheap⟩ := heapExtend_of_mapped hmap
    refine ⟨σ₁, 0, i, hext, ⟨pages, ?_⟩, ?_, fun _ => ⟨hbytes, ?_⟩, fun _ => rfl,
      hl.first hjpos⟩
    · rw [hheap]
      exact Mm.heapExtend_of_mapped hmap'
    · rw [htables]
      exact hl.backing
    · rw [hheap, (Records.refl _).mergePrev.heapEnd, (linkBlock_wrote _ _ _).2, hkeep,
        wrap64_of_lt hend]
  · exact ⟨σ', ret, i, heapExtend_of_failed hmap hret,
      ⟨⟨pages, Mm.heapExtend_of_failed hmap' hret⟩, hl.backing, fun h0 => absurd h0 hret, henough,
        hl.first hjpos⟩⟩

end

end BackedHeap

end Tianole.Mm
