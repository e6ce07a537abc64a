import Mathlib.Data.List.Perm.Subperm
import Tianole.Lib.Cache
import Tianole.Lib.WordList
import Tianole.Mm.HeapSlots
import Tianole.Mm.MapFailure
import Tianole.Mm.PageInit
import Tianole.Mm.PageWalk

/-! The page allocator and the page tables in one physical memory: `map_page` with the
`alloc_page` that it calls, whose free list is linked through the free pages themselves, and with
the translations that the processor keeps. Physical memory is mapped to itself. -/
namespace Tianole.Mm
open Memory Word WordList

instance (virt : ℕ) : Decidable (Canonical virt) := inferInstanceAs (Decidable (_ ∨ _ ∧ _))

/-- What `mm` works on: the memory with the allocator's variables, the root register, and the
translations of virtual pages that the processor has cached. -/
structure MemoryManager where
  pages : PageAllocator
  cr3 : ℕ
  tlb : ℕ → Option ℕ

namespace MemoryManager

def mem (m : MemoryManager) : Mem := m.pages.mem

def root (m : MemoryManager) : ℕ := activePml4 m.cr3

/-- `*entry = value` -/
def setWord (m : MemoryManager) (entry value : ℕ) : MemoryManager :=
  { m with pages := { m.pages with mem := store m.pages.mem entry 8 value } }

def allocPage (m : MemoryManager) : MemoryManager × ℕ :=
  ({ m with pages := (Mm.allocPage m.pages).1 }, (Mm.allocPage m.pages).2)

def freePage (m : MemoryManager) (page : ℕ) : Except Stop MemoryManager :=
  (Mm.freePage m.pages page).map fun pages => { m with pages := pages }

/-! ### The processor -/

/-- Where the tables send a virtual page. -/
def walk (m : MemoryManager) (page : ℕ) : Option ℕ :=
  if Canonical (page * pageSize) then hardwareWalk m.mem m.root (page * pageSize) else none

/-- The processor walks the tables for some pages, and keeps what it finds. -/
def lookUp (m : MemoryManager) (seen : List ℕ) : MemoryManager :=
  { m with tlb := seen.foldl (Cache.fill m.walk) m.tlb }

/-- `invlpg` -/
def flushTlbPage (m : MemoryManager) (virt : ℕ) : MemoryManager :=
  { m with tlb := Cache.drop m.tlb (virt / pageSize) }

/-- The address that an access to `virt` goes to, unless it faults. -/
def access (m : MemoryManager) (virt : ℕ) : Option ℕ :=
  (Cache.lookup m.tlb m.walk (virt / pageSize)).map (· + virt % pageSize)

/-! ### The calls -/

def clearPage (m : MemoryManager) (page : ℕ) : MemoryManager :=
  (List.range (pageSize / 8)).foldl (fun m index => m.setWord (page + 8 * index) 0) m

def ensureNextTable (m : MemoryManager) (table index : ℕ) : MemoryManager × Except ℤ ℕ :=
  if isPresent (tableWord m.mem table index) then
    (m, .ok (entryTable (tableWord m.mem table index)))
  else
    let (m, page) := m.allocPage
    if page = 0 then (m, .error (-enomem))
    else ((m.clearPage page).setWord (table + 8 * index) (makeTableEntry page), .ok page)

def withTable (r : MemoryManager × Except ℤ ℕ)
    (f : MemoryManager → ℕ → MemoryManager × Except ℤ ℕ) : MemoryManager × Except ℤ ℕ :=
  match r with
  | (m, .ok table) => f m table
  | (m, .error ret) => (m, .error ret)

/-- `page_entry` with `create`. -/
def createEntry (m : MemoryManager) (virt : ℕ) : MemoryManager × Except ℤ ℕ :=
  withTable (m.ensureNextTable m.root (tableIndex virt 39)) fun m pdpt =>
    withTable (m.ensureNextTable pdpt (tableIndex virt 30)) fun m pd =>
      withTable (m.ensureNextTable pd (tableIndex virt 21)) fun m pt =>
        (m, .ok (pt + 8 * tableIndex virt 12))

/-- `map_page`, where the processor looks up `seen` between the store and `invlpg`. -/
def mapPage (m : MemoryManager) (virt phys flags : ℕ) (seen : List ℕ) : MemoryManager × ℤ :=
  if virt &&& (pageSize - 1) ≠ 0 ∨ phys &&& (pageSize - 1) ≠ 0 then (m, -einval)
  else
    match m.createEntry virt with
    | (m, .error ret) => (m, ret)
    | (m, .ok entry) =>
        if isPresent (load m.mem entry 8) then (m, -eexist)
        else
          let m := m.setWord entry ((phys &&& x86PageMask) ||| flags ||| pagePresent)
          ((m.lookUp seen).flushTlbPage virt, 0)

def unmapPage (m : MemoryManager) (virt : ℕ) (seen : List ℕ) : MemoryManager × ℤ :=
  if virt &&& (pageSize - 1) ≠ 0 then (m, -einval)
  else
    match findEntry m.mem m.root virt with
    | .error _ => (m, -enoent)
    | .ok entry =>
        if isPresent (load m.mem entry 8) = false then (m, -enoent)
        else (((m.setWord entry 0).lookUp seen).flushTlbPage virt, 0)

/-- The tables, with the pages `free` for `alloc_page` to return. -/
def tables (m : MemoryManager) (free : List ℕ) : PageTables := ⟨m.mem, m.cr3, free, []⟩

/-- `virt_to_phys` -/
def virtToPhys (m : MemoryManager) (virt : ℕ) (out : Bool) : Except ℤ ℕ :=
  Mm.virtToPhys (m.tables []) virt out

/-- The loop of `page_tables_init`, and `load_cr3`. -/
def pageTablesInit (m : MemoryManager) (kernelPml4 : ℕ) : MemoryManager :=
  let copied := (List.range x86PageTableEntries).foldl
    (fun m' index => m'.setWord (kernelPml4 + 8 * index) (tableWord m'.mem m.root index)) m
  { copied with cr3 := kernelPml4, tlb := fun _ => none }

end MemoryManager

/-! ### The tables with a supply of pages -/

/-- The tables `st` are those in memory, and their supply is the free list that is linked there. -/
structure Follows (m : MemoryManager) (st : PageTables) : Prop where
  mem : st.mem = m.mem
  cr3 : st.cr3 = m.cr3
  list : Holds m.mem m.pages.freePages st.supply
  head : m.pages.freePages < 2 ^ 64
  count : m.pages.freePageCount = st.supply.length

/-- A call and the one that it follows: the same answer, and states that correspond. -/
structure SameAnswer {α : Type} (r : MemoryManager × α) (r' : PageTables × α) : Prop where
  answer : r.2 = r'.2
  follows : Follows r.1 r'.1

section
variable {m : MemoryManager} {st : PageTables} {p : List (Fin 512)} {t page entry v : ℕ}
  {i : Fin 512}

theorem Follows.root (h : Follows m st) : m.root = st.root := by
  rw [MemoryManager.root, PageTables.root, h.cr3]

theorem Follows.tlb (h : Follows m st) (tlb : ℕ → Option ℕ) : Follows { m with tlb := tlb } st :=
  ⟨h.mem, h.cr3, h.list, h.head, h.count⟩

/-- Stores outside the link words of the free pages. -/
theorem Follows.setWord (h : Follows m st)
    (hout : ∀ page ∈ st.supply, page + 8 ≤ entry ∨ entry + 8 ≤ page) :
    Follows (m.setWord entry v) (st.setWord entry v) := by
  refine ⟨?_, h.cr3, ?_, h.head, h.count⟩
  · show store st.mem entry 8 v = store m.mem entry 8 v
    rw [h.mem]
  · apply h.list.congr
    intro page hpage x hx hx'
    apply store_of_outside
    have := hout page hpage
    omega

theorem Follows.clearPage (h : Follows m st)
    (hout : ∀ free ∈ st.supply, free + pageSize ≤ page ∨ page + pageSize ≤ free) :
    Follows (m.clearPage page) (clearPage st page) := by
  have hloop : ∀ l : List ℕ, (∀ index ∈ l, index < 512) → ∀ m st, Follows m st →
      (∀ free ∈ st.supply, free + pageSize ≤ page ∨ page + pageSize ≤ free) →
      Follows (l.foldl (fun m index => m.setWord (page + 8 * index) 0) m)
        (l.foldl (fun st index => st.setWord (page + 8 * index) 0) st) := by
    intro l
    induction l with
    | nil => exact fun _ m st h _ => h
    | cons index l ih =>
      intro hl m st h hout
      obtain ⟨hindex, hl⟩ := List.forall_mem_cons.mp hl
      apply ih hl
      · apply h.setWord
        intro free hfree
        have := hout free hfree
        simp only [pageSize] at this
        omega
      · exact hout
  apply hloop _ _ m st h hout
  intro index hindex
  exact List.mem_range.mp hindex

/-- The distinct pages of the supply are fewer than a word can count. -/
theorem FreshSupply.length_le (hs : FreshSupply st) (hne : ∀ page ∈ st.supply, page ≠ 0) :
    st.supply.length ≤ 2 ^ 52 := by
  have hfilter : st.supply.filter (· ≠ 0) = st.supply :=
    List.filter_eq_self.mpr fun page hp => decide_eq_true (hne page hp)
  have hnodup : st.supply.Nodup := hfilter ▸ hs.nodup
  have hsub : st.supply ⊆ List.range (2 ^ 52) := by
    intro page hp
    exact List.mem_range.mpr (hs.fresh page hp (hne page hp)).2.1
  have hlen := (List.subperm_of_subset hnodup hsub).length_le
  rwa [List.length_range] at hlen

theorem PageAllocator.pop_mem (pages : PageAllocator) : pages.pop.mem = pages.mem := by
  simp only [PageAllocator.pop]

theorem PageAllocator.pop_freePages (pages : PageAllocator) :
    pages.pop.freePages = load pages.mem pages.freePages 8 := by
  simp only [PageAllocator.pop]

/-- `alloc_page` takes the first page of the supply. -/
theorem Follows.allocPage (h : Follows m st) (hs : FreshSupply st) :
    SameAnswer m.allocPage st.takePage := by
  unfold MemoryManager.allocPage Mm.allocPage PageTables.takePage
  rcases h.list.cases with ⟨hnull, hnil⟩ | ⟨hne, rest, hl, hrest⟩
  · rw [if_pos hnull, hnil]
    refine ⟨rfl, ⟨h.mem, h.cr3, ?_, h.head, ?_⟩⟩
    · show Holds m.mem m.pages.freePages []
      rw [← hnil]
      exact h.list
    · show m.pages.freePageCount = 0
      rw [h.count, hnil]
      rfl
  · rw [if_neg hne, hl]
    refine ⟨rfl, ⟨?_, h.cr3, ?_, ?_, ?_⟩⟩
    · rw [MemoryManager.mem, PageAllocator.pop_mem]
      exact h.mem
    · rw [MemoryManager.mem, PageAllocator.pop_mem, PageAllocator.pop_freePages]
      exact hrest
    · have hload : load m.pages.mem m.pages.freePages 8 < 256 ^ 8 := load_lt
      simpa [PageAllocator.pop] using hload
    · have hlen := hs.length_le fun page hp => h.list.ne_zero hp
      rw [hl, List.length_cons] at hlen
      show sub64 m.pages.freePageCount 1 = rest.length
      rw [h.count, hl, List.length_cons]
      exact sub64_of_le (by omega) (by omega)

theorem clearPage_supply (st : PageTables) (page : ℕ) : (clearPage st page).supply = st.supply := by
  unfold clearPage
  generalize List.range (pageSize / 8) = l
  induction l generalizing st with
  | nil => rfl
  | cons index l ih => exact ih (st.setWord (page + 8 * index) 0)

/-- Words of a table are apart from the pages of the supply. -/
theorem FreshSupply.apart (hs : FreshSupply st) (hp : st.tableAt p = some t) (hd : p.length ≤ 3)
    (hpage : page ∈ st.supply) (hne : page ≠ 0) :
    page + pageSize ≤ t * pageSize ∨ t * pageSize + pageSize ≤ page := by
  obtain ⟨⟨f, rfl⟩, -, hfresh⟩ := hs.fresh page hpage hne
  have hft : f ≠ t := by
    rintro rfl
    apply hfresh p hd
    rw [hp, Nat.mul_div_cancel_left _ (by decide)]
  simp only [pageSize]
  omega

theorem Follows.setEntry (h : Follows m st) (hs : FreshSupply st) (hp : st.tableAt p = some t)
    (hd : p.length ≤ 3) (i : Fin 512) (v : ℕ) :
    Follows (m.setWord (t * pageSize + 8 * i) v) (st.setWord (t * pageSize + 8 * i) v) := by
  apply h.setWord
  intro page hpage
  have hapart := hs.apart hp hd hpage (h.list.ne_zero hpage)
  have hi := i.isLt
  simp only [pageSize] at *
  omega

/-- A step of `page_entry`. -/
theorem Follows.ensureNextTable (h : Follows m st) (hs : FreshSupply st)
    (hp : st.tableAt p = some t) (hd : p.length < 3) (i : Fin 512) :
    SameAnswer (m.ensureNextTable (t * pageSize) i) (ensureNextTable st (t * pageSize) i) := by
  unfold MemoryManager.ensureNextTable Mm.ensureNextTable
  rw [← h.mem]
  split
  next => exact ⟨rfl, h⟩
  next =>
    obtain ⟨hpage, hfollows⟩ := h.allocPage hs
    have hsupply : st.takePage.1.supply = st.supply.tail := rfl
    simp only [hpage]
    split
    next => exact ⟨rfl, hfollows⟩
    next hne =>
      refine ⟨rfl, ?_⟩
      have hhead : st.supply = st.takePage.2 :: st.supply.tail := by
        cases hsup : st.supply with
        | nil =>
          rw [PageTables.takePage, hsup] at hne
          exact absurd rfl hne
        | cons page rest => simp [PageTables.takePage, hsup]
      have hmem {free : ℕ} (hfree : free ∈ st.supply.tail) : free ∈ st.supply :=
        List.mem_of_mem_tail hfree
      have hne' {free : ℕ} (hfree : free ∈ st.supply.tail) : free ≠ 0 := h.list.ne_zero (hmem hfree)
      have halign {free : ℕ} (hfree : free ∈ st.supply) : pageSize ∣ free :=
        (hs.fresh free hfree (h.list.ne_zero hfree)).1
      apply Follows.setWord
      · apply hfollows.clearPage
        intro free hfree
        apply pages_apart (halign (hmem hfree)) (halign (by rw [hhead]; simp))
        rintro rfl
        have hnodup := h.list.nodup
        rw [hhead, List.nodup_cons] at hnodup
        exact hnodup.1 hfree
      · intro free hfree
        rw [(clearPage_supply _ _).trans hsupply] at hfree
        have hapart := hs.apart hp hd.le (hmem hfree) (hne' hfree)
        have hi := i.isLt
        simp only [pageSize] at *
        omega

/-- The next table, with all that the following step needs to know, or no memory. -/
theorem Follows.nextTable (h : Follows m st) (ht : TreeTables st) (hs : FreshSupply st)
    (hp : st.tableAt p = some t) (hd : p.length < 3) (i : Fin 512) : ∃ m' st',
      Follows m' st' ∧ TreeTables st' ∧ FreshSupply st' ∧
      ((∃ t', m.ensureNextTable (t * pageSize) i = (m', .ok (t' * pageSize)) ∧
        Mm.ensureNextTable st (t * pageSize) i = (st', .ok (t' * pageSize)) ∧
        st'.tableAt (p ++ [i]) = some t') ∨
      m.ensureNextTable (t * pageSize) i = (m', .error (-enomem)) ∧
        Mm.ensureNextTable st (t * pageSize) i = (st', .error (-enomem))) := by
  obtain ⟨hanswer, hfollows⟩ := h.ensureNextTable hs hp hd i
  obtain ⟨st', hfeeds, ⟨t', he, hnext⟩ | ⟨he, -⟩⟩ := ensureNextTable_feeds (i := i) ht hs hp hd
  · rw [he] at hanswer hfollows
    exact ⟨_, st', hfollows, hfeeds.grows.shaped, hfeeds.grows.fresh,
      .inl ⟨t', Prod.ext rfl hanswer, he, hnext⟩⟩
  · rw [he] at hanswer hfollows
    exact ⟨_, st', hfollows, hfeeds.grows.shaped, hfeeds.grows.fresh,
      .inr ⟨Prod.ext rfl hanswer, he⟩⟩

/-- `page_entry` leads to the same entry. -/
theorem Follows.createEntry (h : Follows m st) (ht : TreeTables st) (hs : FreshSupply st)
    (virt : ℕ) : ∃ m' st', Follows m' st' ∧ FreshSupply st' ∧
      ((∃ t, m.createEntry virt = (m', .ok (t * pageSize + 8 * tableIndex virt 12)) ∧
        Mm.createEntry st virt = (st', .ok (t * pageSize + 8 * tableIndex virt 12)) ∧
        st'.tableAt (tablePath virt) = some t) ∨
      m.createEntry virt = (m', .error (-enomem)) ∧
        Mm.createEntry st virt = (st', .error (-enomem))) := by
  have hroot : st.tableAt [] = some st.frame := rfl
  have hindex (shift : ℕ) : tableIndex virt shift = indexAt virt shift := rfl
  unfold MemoryManager.createEntry Mm.createEntry
  rw [h.root, ← st.root_frame, hindex 39, hindex 30, hindex 21]
  obtain ⟨m₁, st₁, h₁, ht₁, hs₁, ⟨t₁, he₁, he₁', hp₁⟩ | ⟨he₁, he₁'⟩⟩ :=
    h.nextTable ht hs hroot (by decide) (indexAt virt 39)
  · obtain ⟨m₂, st₂, h₂, ht₂, hs₂, ⟨t₂, he₂, he₂', hp₂⟩ | ⟨he₂, he₂'⟩⟩ :=
      h₁.nextTable ht₁ hs₁ hp₁ (by simp) (indexAt virt 30)
    · obtain ⟨m₃, st₃, h₃, ht₃, hs₃, ⟨t₃, he₃, he₃', hp₃⟩ | ⟨he₃, he₃'⟩⟩ :=
        h₂.nextTable ht₂ hs₂ hp₂ (by simp) (indexAt virt 21)
      · refine ⟨m₃, st₃, h₃, hs₃, .inl ⟨t₃, ?_, ?_, hp₃⟩⟩
        · simp only [he₁, he₂, he₃, MemoryManager.withTable]
        · simp only [he₁', he₂', he₃', withTable]
      · refine ⟨m₃, st₃, h₃, hs₃, .inr ⟨?_, ?_⟩⟩
        · simp only [he₁, he₂, he₃, MemoryManager.withTable]
        · simp only [he₁', he₂', he₃', withTable]
    · refine ⟨m₂, st₂, h₂, hs₂, .inr ⟨?_, ?_⟩⟩
      · simp only [he₁, he₂, MemoryManager.withTable]
      · simp only [he₁', he₂', withTable]
  · refine ⟨m₁, st₁, h₁, hs₁, .inr ⟨?_, ?_⟩⟩
    · simp only [he₁, MemoryManager.withTable]
    · simp only [he₁', withTable]

theorem Follows.mapPage (h : Follows m st) (ht : TreeTables st) (hs : FreshSupply st)
    (virt phys flags : ℕ) (seen : List ℕ) :
    SameAnswer (m.mapPage virt phys flags seen) (mapPage st virt phys flags) := by
  unfold MemoryManager.mapPage Mm.mapPage
  split
  next => exact ⟨rfl, h⟩
  next =>
    obtain ⟨m', st', h', hs', ⟨t, he, he', hp⟩ | ⟨he, he'⟩⟩ := h.createEntry ht hs virt
    · rw [he, he']
      simp only [h'.mem]
      split
      next => exact ⟨rfl, h'⟩
      next => exact ⟨rfl, (h'.setEntry hs' hp le_rfl (indexAt virt 12) _).tlb _⟩
    · rw [he, he']
      exact ⟨rfl, h'⟩

theorem Follows.unmapPage (h : Follows m st) (hs : FreshSupply st) (virt : ℕ) (seen : List ℕ) :
    SameAnswer (m.unmapPage virt seen) (unmapPage st virt) := by
  unfold MemoryManager.unmapPage Mm.unmapPage
  rw [h.root, ← h.mem]
  split
  next => exact ⟨rfl, h⟩
  next =>
    rw [findEntry_eq]
    cases hp : st.tableAt (tablePath virt) with
    | none => exact ⟨rfl, h⟩
    | some t =>
      simp only [Option.map_some, Option.elim_some]
      split
      next => exact ⟨rfl, h⟩
      next => exact ⟨rfl, (h.setEntry hs hp le_rfl (indexAt virt 12) 0).tlb _⟩

theorem Follows.pageTablesInit (h : Follows m st) {k : ℕ}
    (hout : ∀ free ∈ st.supply, free + pageSize ≤ k * pageSize ∨ k * pageSize + pageSize ≤ free) :
    Follows (m.pageTablesInit (k * pageSize)) (pageTablesInit st (k * pageSize)) := by
  have hloop : ∀ l : List ℕ, (∀ index ∈ l, index < 512) → ∀ m' st', Follows m' st' →
      st'.supply = st.supply →
      Follows (l.foldl (fun m' index =>
          m'.setWord (k * pageSize + 8 * index) (tableWord m'.mem st.root index)) m')
        (l.foldl (fun st' index =>
          st'.setWord (k * pageSize + 8 * index) (tableWord st'.mem st.root index)) st') := by
    intro l
    induction l with
    | nil => exact fun _ m' st' h' _ => h'
    | cons index l ih =>
      intro hl m' st' h' hsupply
      obtain ⟨hindex, hl⟩ := List.forall_mem_cons.mp hl
      have hword : tableWord m'.mem st.root index = tableWord st'.mem st.root index := by rw [h'.mem]
      have hset : Follows (m'.setWord (k * pageSize + 8 * index) (tableWord st'.mem st.root index))
          (st'.setWord (k * pageSize + 8 * index) (tableWord st'.mem st.root index)) := by
        apply h'.setWord
        intro free hfree
        have hapart := hout free (hsupply ▸ hfree)
        simp only [pageSize] at hapart ⊢
        omega
      rw [List.foldl_cons, List.foldl_cons, hword]
      exact ih hl _ _ hset hsupply
  have hcopied := hloop (List.range x86PageTableEntries)
    (fun index hindex => List.mem_range.mp hindex) m st h rfl
  unfold MemoryManager.pageTablesInit Mm.pageTablesInit
  rw [h.root]
  generalize (List.range x86PageTableEntries).foldl _ m = m' at hcopied
  generalize (List.range x86PageTableEntries).foldl _ st = st' at hcopied
  exact ⟨hcopied.mem, rfl, hcopied.list, hcopied.head, hcopied.count⟩

end

/-! ### Stores elsewhere -/

section
variable {st : PageTables} {a n v : ℕ}

/-- Stores outside the tables. -/
theorem sameTables_store (supply : List ℕ)
    (hout : ∀ p t, p.length ≤ 3 → st.tableAt p = some t →
      a + n ≤ t * pageSize ∨ t * pageSize + pageSize ≤ a) :
    SameTables st ⟨store st.mem a n v, st.cr3, supply, st.written⟩ := by
  constructor
  · rfl
  · intro p t hp hpt j
    apply load_store_of_disjoint
    have hapart := hout p t hp hpt
    have hj := j.isLt
    simp only [pageSize] at *
    omega

end

end Tianole.Mm
