import Tianole.Mm.OneMemory
import Tianole.Mm.PageOwnership

/-! The memory manager and the code that uses it, step by step. Every page of the pool is free,
held by a caller, or a page table, and the translations that the processor has cached are those of
the tables. -/
namespace Tianole.Mm
open Memory Word Runs WordList

/-! ### What the processor finds -/

section
variable {m : MemoryManager} {st st' : PageTables} {virt page : ℕ}

/-- Where there are no large pages, the processor and `virt_to_phys` read the same entries. -/
theorem TreeTables.agrees (ht : TreeTables st) (virt : ℕ) : st.Agrees virt := by
  have hword (e : ℕ) (shift : ℕ) : tableWord st.mem (entryTable e) (tableIndex virt shift) =
      frameWord st.mem (entryTable e / pageSize) (indexAt virt shift) := by
    rw [frameWord, entryTable_frame]
    rfl
  have h₃ (h : isPresent (pml4Entry st.mem st.root virt) = true) :
      st.tableAt [indexAt virt 39] = some (entryTable (pml4Entry st.mem st.root virt) / pageSize) := by
    have hroot : frameWord st.mem st.frame (indexAt virt 39) = pml4Entry st.mem st.root virt := by
      rw [frameWord, st.root_frame]
      rfl
    simp [PageTables.tableAt, Radix.table, hroot, entryFrame, h]
  have h₂ (h : isPresent (pml4Entry st.mem st.root virt) = true)
      (h' : isPresent (pdptEntry st.mem st.root virt) = true) :
      st.tableAt [indexAt virt 39, indexAt virt 30] =
        some (entryTable (pdptEntry st.mem st.root virt) / pageSize) := by
    have happend : [indexAt virt 39, indexAt virt 30] = [indexAt virt 39] ++ [indexAt virt 30] := rfl
    rw [happend, PageTables.tableAt, Radix.table_concat,
      show Radix.table _ _ _ [indexAt virt 39] = _ from h₃ h, Option.bind_some, ← hword]
    exact if_pos h'
  rw [agrees_iff]
  constructor
  · rintro ⟨h, h', hlarge⟩
    rw [pdptEntry, hword] at h' hlarge
    rw [ht.noLarge _ _ (by simp) (h₃ h) _ h'] at hlarge
    cases hlarge
  · rintro ⟨h, h', -, h'', hlarge⟩
    rw [pdEntry, hword] at h'' hlarge
    rw [ht.noLarge _ _ (by simp) (h₂ h h') _ h''] at hlarge
    cases hlarge

/-- The walk of the processor reads the leaf entry. -/
theorem TreeTables.hardwareWalk_eq (ht : TreeTables st) (virt : ℕ) :
    hardwareWalk st.mem st.root virt =
      (st.leafOf virt).map fun e => (e &&& x86PageMask) ||| (virt &&& (pageSize - 1)) := by
  have hagrees := ht.agrees virt
  have hcode := virtToPhys_eq st virt
  cases hleaf : st.leafOf virt with
  | none =>
    cases hwalk : hardwareWalk st.mem st.root virt with
    | none => rfl
    | some q =>
      rw [(hagrees.translated q).mpr hwalk, hleaf] at hcode
      cases hcode
  | some e =>
    rw [hleaf] at hcode
    exact (hagrees.translated _).mp hcode

theorem Follows.walk_eq (h : Follows m st) (ht : TreeTables st) (page : ℕ) :
    m.walk page = if Canonical (page * pageSize) then
      (st.leafOf (page * pageSize)).map (· &&& x86PageMask) else none := by
  unfold MemoryManager.walk
  rw [h.root, ← h.mem, ht.hardwareWalk_eq, land_pageOffset_of_dvd (Nat.dvd_mul_left _ _)]
  simp only [Nat.or_zero]

theorem canonical_page (hv : Canonical virt) : Canonical (virt / pageSize * pageSize) := by
  simp only [Canonical, pageSize] at *
  omega

/-- `virt_to_phys` is what an access goes to. -/
theorem Follows.access_eq (h : Follows m st) (ht : TreeTables st)
    (hc : Cache.Coherent m.tlb m.walk) (hv : Canonical virt) :
    m.access virt = (virtToPhys st virt true).toOption := by
  have hfloor : (virt / pageSize * pageSize) / pageSize = virt / pageSize :=
    Nat.mul_div_cancel _ (by decide)
  unfold MemoryManager.access
  rw [hc.lookup_eq, h.walk_eq ht, if_pos (canonical_page hv), leafOf_congr hfloor, virtToPhys_eq]
  cases st.leafOf virt with
  | none => rfl
  | some e =>
    have hor : (e &&& x86PageMask) ||| (virt &&& (pageSize - 1)) =
        (e &&& x86PageMask) + virt % pageSize := by
      obtain ⟨k, hk⟩ : pageSize ∣ e &&& x86PageMask := entryTable_dvd e
      rw [land_pageOffset, hk]
      exact (Nat.two_pow_add_eq_or_of_lt (i := 12) (Nat.mod_lt _ (by decide)) k).symm
    simp [hor, Except.toOption]

end

/-! ### The system -/

/-- A virtual page that `map_page` has mapped. -/
structure Mapping where
  virt : ℕ
  phys : ℕ
  flags : ℕ
  deriving DecidableEq, Repr

/-- How a step can fail to complete. -/
inductive VmStop where
  | stop (stop : Stop)
  | pageFault (virt : ℕ)
  deriving DecidableEq, Repr

structure VmSystem where
  machine : MemoryManager
  /-- The pages that `alloc_page` returned to callers and that were not freed since. -/
  held : List ℕ
  /-- The mappings made by `map_page` and not removed since. -/
  mapped : List Mapping

inductive VmAction where
  | alloc
  | free (page : ℕ)
  | map (virt phys flags : ℕ) (seen : List ℕ)
  | unmap (virt : ℕ) (seen : List ℕ)
  | pageTablesInit (kernelPml4 : ℕ)
  /-- The processor caches translations. -/
  | lookUp (seen : List ℕ)
  /-- The processor forgets one. -/
  | forget (page : ℕ)
  /-- Some other code stores a byte in physical memory. -/
  | poke (a v : ℕ)
  /-- A byte is stored through the mapping of a virtual address. -/
  | write (virt v : ℕ)

namespace MemoryManager

def storeBytes (m : MemoryManager) (a n v : ℕ) : MemoryManager :=
  { m with pages := { m.pages with mem := store m.pages.mem a n v } }

def poke (m : MemoryManager) (a v : ℕ) : MemoryManager := m.storeBytes a 1 v

def forget (m : MemoryManager) (page : ℕ) : MemoryManager :=
  { m with tlb := Cache.drop m.tlb page }

end MemoryManager

namespace VmSystem

def step (σ : VmSystem) : VmAction → Except VmStop VmSystem
  | .alloc =>
      let (m, page) := σ.machine.allocPage
      .ok ⟨m, if page = 0 then σ.held else page :: σ.held, σ.mapped⟩
  | .free page =>
      ((σ.machine.freePage page).map fun m => ⟨m, σ.held.erase page, σ.mapped⟩).mapError .stop
  | .map virt phys flags seen =>
      let (m, ret) := σ.machine.mapPage virt phys flags seen
      .ok ⟨m, σ.held, if ret = 0 then ⟨virt, phys, flags⟩ :: σ.mapped else σ.mapped⟩
  | .unmap virt seen =>
      let (m, ret) := σ.machine.unmapPage virt seen
      .ok ⟨m, σ.held, if ret = 0 then σ.mapped.filter (·.virt ≠ virt) else σ.mapped⟩
  | .pageTablesInit kernelPml4 => .ok { σ with machine := σ.machine.pageTablesInit kernelPml4 }
  | .lookUp seen => .ok { σ with machine := σ.machine.lookUp seen }
  | .forget page => .ok { σ with machine := σ.machine.forget page }
  | .poke a v => .ok { σ with machine := σ.machine.poke a v }
  | .write virt v =>
      match σ.machine.access virt with
      | none => .error (.pageFault virt)
      | some a => .ok { σ with machine := σ.machine.poke a v }

/-- Page frame `f` holds a table of the active root. -/
def IsTable (σ : VmSystem) (f : ℕ) : Prop :=
  ∃ p, p.length ≤ 3 ∧ (σ.machine.tables []).tableAt p = some f

/-- What callers do: they free pages that they hold and that are not mapped, they map pages that
they hold, they do not unmap the physical address of a usable page or of a table, the new root is a
page of the kernel's own that is mapped to itself, and nobody stores into free pages or tables but
through `mm`, nor through a mapping that is not writable. -/
def Admissible (pool : List ℕ) (σ : VmSystem) : VmAction → Prop
  | .alloc => True
  | .free page => page ∈ σ.held ∧ ∀ e ∈ σ.mapped, e.phys ≠ page
  | .map virt phys flags _ =>
      Canonical virt ∧ MapFlags flags ∧ (¬ Unaligned virt phys → phys ∈ σ.held)
  | .unmap virt _ => Canonical virt ∧
      (pageSize ∣ virt → virt ∉ pool ∧ ¬ σ.IsTable (virt / pageSize))
  | .pageTablesInit kernelPml4 => pageSize ∣ kernelPml4 ∧ kernelPml4 < 2 ^ 52 ∧
      kernelPml4 ∉ pool ∧ ¬ σ.IsTable (kernelPml4 / pageSize) ∧
      σ.machine.access kernelPml4 = some kernelPml4
  | .lookUp _ => True
  | .forget _ => True
  | .poke a _ => pageOf a ∈ σ.held ∨ pageOf a ∉ pool ∧ ¬ σ.IsTable (a / pageSize)
  | .write virt _ => ∃ e ∈ σ.mapped, virt / pageSize * pageSize = e.virt ∧
      e.flags &&& pageWritable ≠ 0

end VmSystem

/-! ### The invariant -/

/-- Distinct pages of physical memory. -/
structure Pool (pool : List ℕ) : Prop where
  nodup : pool.Nodup
  pages : ∀ page ∈ pool, page ≠ 0 ∧ pageSize ∣ page ∧ page < 2 ^ 52

/-- The pages of the pool are held, free, or among the tables `laid`; `st` are the tables with
the free list for their supply. -/
structure Parted (pool : List ℕ) (σ : VmSystem) (st : PageTables) (laid : List ℕ) : Prop where
  follows : Follows σ.machine st
  tree : TreeTables st
  parts : (σ.held ++ st.supply ++ laid).Perm pool
  spare : ∀ page ∈ σ.held ++ st.supply, ∀ p, p.length ≤ 3 → st.tableAt p ≠ some (page / pageSize)
  laid : ∀ page ∈ laid, ∃ p, p ≠ [] ∧ p.length ≤ 3 ∧ st.tableAt p = some (page / pageSize)
  mapped : ∀ e ∈ σ.mapped, Canonical e.virt ∧ pageSize ∣ e.virt ∧ MapFlags e.flags ∧
    e.phys ∈ σ.held ∧ st.leafOf e.virt = some (leafEntry e.phys e.flags)
  coherent : Cache.Coherent σ.machine.tlb σ.machine.walk

section
variable {pool laid : List ℕ} {σ : VmSystem} {m m' : MemoryManager} {st st' : PageTables}
  {page a v virt phys flags : ℕ} {seen : List ℕ}

theorem Parted.nodup (h : Parted pool σ st laid) (hpool : Pool pool) :
    (σ.held ++ st.supply ++ laid).Nodup := h.parts.nodup_iff.mpr hpool.nodup

theorem Parted.bounds (h : Parted pool σ st laid) (hpool : Pool pool)
    (hp : page ∈ σ.held ++ st.supply) : page ≠ 0 ∧ pageSize ∣ page ∧ page < 2 ^ 52 :=
  hpool.pages page (h.parts.subset (List.mem_append_left _ hp))

theorem Parted.fresh (h : Parted pool σ st laid) (hpool : Pool pool) : FreshSupply st := by
  constructor
  · have hnodup := (h.nodup hpool).sublist (List.sublist_append_left _ _)
    exact (hnodup.sublist (List.sublist_append_right _ _)).filter _
  · intro page hp _
    have hmem := List.mem_append_right σ.held hp
    obtain ⟨-, hdvd, hlt⟩ := h.bounds hpool hmem
    exact ⟨hdvd, hlt, h.spare page hmem⟩

/-- The processor finds the same as long as the leaf entries are the same. -/
theorem walk_congr (h : Follows m st) (ht : TreeTables st) (h' : Follows m' st')
    (ht' : TreeTables st') {k : ℕ} (hk : Canonical (k * pageSize) →
      st'.leafOf (k * pageSize) = st.leafOf (k * pageSize)) : m'.walk k = m.walk k := by
  rw [h.walk_eq ht, h'.walk_eq ht']
  split
  next hc => rw [hk hc]
  next => rfl

/-! ### The allocator -/

/-- Steps that leave the words of all tables as they are. -/
theorem Parted.moved (h : Parted pool σ st laid) (hsame : SameTables st st')
    (hfollows : Follows m' st') (htlb : m'.tlb = σ.machine.tlb) {held : List ℕ}
    (hparts : (held ++ st'.supply).Perm (σ.held ++ st.supply))
    (hmapped : ∀ e ∈ σ.mapped, e.phys ∈ held) : Parted pool ⟨m', held, σ.mapped⟩ st' laid := by
  have htree := hsame.tree h.tree
  have hwalk : m'.walk = σ.machine.walk := by
    funext k
    exact walk_congr h.follows h.tree hfollows htree fun _ => hsame.leafOf_eq _
  refine ⟨hfollows, htree, (hparts.append_right laid).trans h.parts, ?_, ?_, ?_, ?_⟩
  · intro page hp p hlen
    rw [hsame.tableAt_eq (Nat.le_succ_of_le hlen)]
    exact h.spare page (hparts.subset hp) p hlen
  · intro page hp
    obtain ⟨p, hne, hlen, htable⟩ := h.laid page hp
    exact ⟨p, hne, hlen, (hsame.tableAt_eq (Nat.le_succ_of_le hlen)).trans htable⟩
  · intro e he
    obtain ⟨hc, hv, hf, -, hleaf⟩ := h.mapped e he
    exact ⟨hc, hv, hf, hmapped e he, (hsame.leafOf_eq _).trans hleaf⟩
  · show Cache.Coherent m'.tlb m'.walk
    rw [hwalk, htlb]
    exact h.coherent

theorem Parted.alloc (h : Parted pool σ st laid) (hpool : Pool pool) :
    ∃ σ', σ.step .alloc = .ok σ' ∧ Parted pool σ' st.takePage.1 laid ∧
      σ.machine.allocPage.2 = st.supply.headD 0 := by
  obtain ⟨hanswer, hfollows⟩ := h.follows.allocPage (h.fresh hpool)
  have hsame : SameTables st st.takePage.1 := ⟨rfl, fun _ _ _ _ _ => rfl⟩
  have htaken : st.takePage.2 = st.supply.headD 0 := rfl
  refine ⟨⟨σ.machine.allocPage.1, if σ.machine.allocPage.2 = 0 then σ.held else
    σ.machine.allocPage.2 :: σ.held, σ.mapped⟩, rfl, ?_, hanswer.trans htaken⟩
  rw [hanswer, htaken]
  cases hsupply : st.supply with
  | nil =>
    apply h.moved hsame hfollows rfl
    · simp [PageTables.takePage, hsupply]
    · intro e he
      exact (h.mapped e he).2.2.2.1
  | cons page rest =>
    have hne : page ≠ 0 := (h.bounds hpool (by simp [hsupply])).1
    rw [List.headD_cons, if_neg hne]
    apply h.moved hsame hfollows rfl
    · simp only [PageTables.takePage, hsupply, List.tail_cons]
      exact List.perm_middle.symm
    · intro e he
      exact List.mem_cons_of_mem _ (h.mapped e he).2.2.2.1

theorem Follows.freePage (h : Follows m st) (hne : page ≠ 0) (hdvd : pageSize ∣ page)
    (hlt : page < 2 ^ 64) (hapart : ∀ free ∈ st.supply, pageSize ∣ free ∧ free ≠ page)
    (hlen : st.supply.length + 1 < 2 ^ 64) : ∃ m', m.freePage page = .ok m' ∧ m'.tlb = m.tlb ∧
      Follows m' ⟨store st.mem page 8 m.pages.freePages, st.cr3, page :: st.supply, st.written⟩ := by
  have hfree : Mm.freePage m.pages page = .ok (addFreePage m.pages page) := by
    apply if_neg
    rw [land_pageOffset_of_dvd hdvd]
    simpa using hne
  refine ⟨{ m with pages := addFreePage m.pages page }, ?_, rfl, ⟨?_, h.cr3, ?_, hlt, ?_⟩⟩
  · rw [MemoryManager.freePage, hfree]
    rfl
  · rw [h.mem]
    rfl
  · apply h.list.push hne h.head
    intro free hfree
    obtain ⟨hfdvd, hfne⟩ := hapart free hfree
    have hpages := pages_apart hfdvd hdvd hfne
    simp only [pageSize] at hpages
    omega
  · show wrap64 (m.pages.freePageCount + 1) = _
    rw [h.count, List.length_cons]
    exact wrap64_of_lt hlen

/-- Pages that are no tables are apart from the tables. -/
theorem apart_of_spare {p : List (Fin 512)} {t : ℕ} (hdvd : pageSize ∣ page)
    (hspare : st.tableAt p ≠ some (page / pageSize)) (hp : st.tableAt p = some t) :
    page + pageSize ≤ t * pageSize ∨ t * pageSize + pageSize ≤ page := by
  apply pages_apart hdvd (Nat.dvd_mul_left _ _)
  rintro rfl
  rw [Nat.mul_div_cancel _ (by decide)] at hspare
  exact hspare hp

theorem Parted.free (h : Parted pool σ st laid) (hpool : Pool pool)
    (ha : σ.Admissible pool (.free page)) :
    ∃ σ' st', σ.step (.free page) = .ok σ' ∧ Parted pool σ' st' laid ∧ SameTables st st' ∧
      st'.supply = page :: st.supply := by
  obtain ⟨hheld, hunmapped⟩ := ha
  have hmem := List.mem_append_left st.supply hheld
  obtain ⟨hne, hdvd, hlt⟩ := h.bounds hpool hmem
  have hnodup := (h.nodup hpool).sublist (List.sublist_append_left _ _)
  have hapart : ∀ free ∈ st.supply, pageSize ∣ free ∧ free ≠ page := by
    intro free hfree
    refine ⟨(h.bounds hpool (List.mem_append_right _ hfree)).2.1, ?_⟩
    rintro rfl
    exact (List.nodup_append.mp hnodup).2.2 free hheld free hfree rfl
  have hlen := (h.fresh hpool).length_le fun _ hp => h.follows.list.ne_zero hp
  obtain ⟨m', hfree, htlb, hfollows⟩ :=
    h.follows.freePage hne hdvd (by omega) hapart (by omega)
  have hsame : SameTables st ⟨store st.mem page 8 σ.machine.pages.freePages, st.cr3,
      page :: st.supply, st.written⟩ := by
    apply sameTables_store
    intro p t hp htable
    have hpages := apart_of_spare hdvd (h.spare page hmem p hp) htable
    simp only [pageSize] at hpages ⊢
    omega
  refine ⟨⟨m', σ.held.erase page, σ.mapped⟩, _, ?_, h.moved hsame hfollows htlb ?_ ?_, hsame, rfl⟩
  · simp only [VmSystem.step, hfree, Except.map, Except.mapError]
  · exact (List.perm_middle.trans ((List.perm_cons_erase hheld).symm.append_right st.supply))
  · intro e he
    exact (List.mem_erase_of_ne (hunmapped e he)).mpr (h.mapped e he).2.2.2.1

/-! ### Stores by others -/

/-- Bytes of one page, outside the tables and the free pages. -/
theorem Parted.storeBytes {n : ℕ} (h : Parted pool σ st laid) (hpool : Pool pool)
    (hn : a % pageSize + n ≤ pageSize) (hfree : pageOf a ∉ st.supply)
    (htable : ∀ p, p.length ≤ 3 → st.tableAt p ≠ some (a / pageSize)) (v : ℕ) :
    ∃ st', Parted pool ⟨σ.machine.storeBytes a n v, σ.held, σ.mapped⟩ st' laid ∧ SameTables st st' ∧
      st'.supply = st.supply := by
  have hsame : SameTables st ⟨store st.mem a n v, st.cr3, st.supply, st.written⟩ := by
    apply sameTables_store
    intro p t hp hpt
    have hne : t ≠ a / pageSize := by
      rintro rfl
      exact htable p hp hpt
    simp only [pageSize] at hne hn ⊢
    omega
  have hfollows : Follows (σ.machine.storeBytes a n v)
      ⟨store st.mem a n v, st.cr3, st.supply, st.written⟩ := by
    refine ⟨?_, h.follows.cr3, ?_, h.follows.head, h.follows.count⟩
    · rw [h.follows.mem]
      rfl
    · apply h.follows.list.congr
      intro q hq x hx hx'
      apply store_of_outside
      have hdvd := (h.bounds hpool (List.mem_append_right σ.held hq)).2.1
      have hne : pageOf a ≠ q := by
        rintro rfl
        exact hfree hq
      simp only [pageOf, pageSize] at *
      omega
  refine ⟨_, h.moved hsame hfollows rfl (List.Perm.refl _) ?_, hsame, rfl⟩
  intro e he
  exact (h.mapped e he).2.2.2.1

theorem Parted.isTable (h : Parted pool σ st laid) {f : ℕ} :
    σ.IsTable f ↔ ∃ p, p.length ≤ 3 ∧ st.tableAt p = some f := by
  have hst : ∀ p, (σ.machine.tables []).tableAt p = st.tableAt p := by
    intro p
    unfold PageTables.tableAt PageTables.frame PageTables.root
    rw [h.follows.mem, h.follows.cr3]
    rfl
  unfold VmSystem.IsTable
  simp only [hst]

/-- Held pages are neither free nor tables. -/
theorem Parted.held_apart (h : Parted pool σ st laid) (hpool : Pool pool)
    (ha : pageOf a ∈ σ.held) : pageOf a ∉ st.supply ∧
      ∀ p, p.length ≤ 3 → st.tableAt p ≠ some (a / pageSize) := by
  constructor
  · intro hfree
    have hnodup := (h.nodup hpool).sublist (List.sublist_append_left _ _)
    exact (List.nodup_append.mp hnodup).2.2 _ ha _ hfree rfl
  · intro p hp
    have hspare := h.spare _ (List.mem_append_left _ ha) p hp
    rwa [pageOf, Nat.mul_div_cancel _ (by decide)] at hspare

theorem Parted.pokes (h : Parted pool σ st laid) (hpool : Pool pool)
    (ha : σ.Admissible pool (.poke a v)) :
    ∃ σ' st', σ.step (.poke a v) = .ok σ' ∧ Parted pool σ' st' laid ∧ SameTables st st' ∧
      st'.supply = st.supply := by
  have hapart : pageOf a ∉ st.supply ∧ ∀ p, p.length ≤ 3 → st.tableAt p ≠ some (a / pageSize) := by
    rcases ha with hheld | ⟨hout, hnot⟩
    · exact h.held_apart hpool hheld
    · constructor
      · intro hfree
        apply hout
        exact h.parts.subset (List.mem_append_left _ (List.mem_append_right _ hfree))
      · intro p hp htable
        exact hnot (h.isTable.mpr ⟨p, hp, htable⟩)
  obtain ⟨st', hst', hsame, hsupply⟩ :=
    h.storeBytes (n := 1) hpool (Nat.mod_lt a (by decide)) hapart.1 hapart.2 v
  exact ⟨_, st', rfl, hst', hsame, hsupply⟩

/-- The page of a mapping, and where an access to it goes. -/
theorem Parted.access_mapped (h : Parted pool σ st laid) (hpool : Pool pool) {e : Mapping}
    (he : e ∈ σ.mapped) {o : ℕ} (ho : o < pageSize) :
    σ.machine.access (e.virt + o) = some (e.phys + o) := by
  obtain ⟨hcan, hv, hf, hheld, hleaf⟩ := h.mapped e he
  obtain ⟨-, hdvd, hlt⟩ := h.bounds hpool (List.mem_append_left _ hheld)
  have hcan' : Canonical (e.virt + o) := by
    simp only [Canonical, pageSize] at *
    omega
  rw [h.follows.access_eq h.tree h.coherent hcan',
    virtToPhys_of_leaf hleaf hv hdvd hlt hf ho]
  rfl

theorem Parted.writes (h : Parted pool σ st laid) (hpool : Pool pool)
    (ha : σ.Admissible pool (.write virt v)) :
    ∃ σ' st', σ.step (.write virt v) = .ok σ' ∧ Parted pool σ' st' laid ∧ SameTables st st' ∧
      st'.supply = st.supply := by
  obtain ⟨e, he, hvirt, -⟩ := ha
  obtain ⟨-, -, -, hheld, -⟩ := h.mapped e he
  obtain ⟨-, hdvd, -⟩ := h.bounds hpool (List.mem_append_left _ hheld)
  have hsplit : virt = e.virt + virt % pageSize := by
    have hdiv := Nat.div_add_mod' virt pageSize
    omega
  have haccess : σ.machine.access virt = some (e.phys + virt % pageSize) := by
    have hmapped := h.access_mapped hpool he (Nat.mod_lt virt (by decide))
    rwa [← hsplit] at hmapped
  have hpage : pageOf (e.phys + virt % pageSize) = e.phys := by
    simp only [pageOf, pageSize] at hdvd ⊢
    omega
  obtain ⟨hfree, htable⟩ := h.held_apart (a := e.phys + virt % pageSize) hpool (by rwa [hpage])
  obtain ⟨st', hst', hsame, hsupply⟩ :=
    h.storeBytes (n := 1) hpool (Nat.mod_lt _ (by decide)) hfree htable v
  have hstep : σ.step (.write virt v) =
      .ok { σ with machine := σ.machine.poke (e.phys + virt % pageSize) v } := by
    simp only [VmSystem.step, haccess]
  exact ⟨_, st', hstep, hst', hsame, hsupply⟩

/-! ### The processor's own steps -/

theorem Parted.tlb (h : Parted pool σ st laid) {tlb : ℕ → Option ℕ}
    (hc : Cache.Coherent tlb σ.machine.walk) :
    Parted pool { σ with machine := { σ.machine with tlb := tlb } } st laid :=
  ⟨h.follows.tlb tlb, h.tree, h.parts, h.spare, h.laid, h.mapped, hc⟩

/-! ### Mapping -/

@[simp] theorem MemoryManager.setWord_tlb (m : MemoryManager) (entry value : ℕ) :
    (m.setWord entry value).tlb = m.tlb := rfl

theorem clearPage_tlb (m : MemoryManager) (page : ℕ) : (m.clearPage page).tlb = m.tlb := by
  unfold MemoryManager.clearPage
  generalize List.range (pageSize / 8) = l
  induction l generalizing m with
  | nil => rfl
  | cons index l ih => exact ih (m.setWord (page + 8 * index) 0)

/-- Until an entry is found the cache stays as it is, and only memory can run out. -/
structure Searching (tlb : ℕ → Option ℕ) (r : MemoryManager × Except ℤ ℕ) : Prop where
  tlb : r.1.tlb = tlb
  error : ∀ ret, r.2 = .error ret → ret = -enomem

theorem ensureNextTable_searching (m : MemoryManager) (table index : ℕ) :
    Searching m.tlb (m.ensureNextTable table index) := by
  unfold MemoryManager.ensureNextTable
  split
  next => exact ⟨rfl, fun ret h => by cases h⟩
  next =>
    simp only
    split
    next => exact ⟨rfl, fun ret h => (Except.error.inj h).symm⟩
    next =>
      refine ⟨?_, fun ret h => by cases h⟩
      rw [MemoryManager.setWord_tlb, clearPage_tlb]
      rfl

theorem Searching.withTable {r : MemoryManager × Except ℤ ℕ} {tlb : ℕ → Option ℕ}
    {f : MemoryManager → ℕ → MemoryManager × Except ℤ ℕ} (h : Searching tlb r)
    (hf : ∀ m table, m.tlb = tlb → Searching tlb (f m table)) :
    Searching tlb (MemoryManager.withTable r f) := by
  obtain ⟨m, ret | table⟩ := r
  · exact ⟨h.tlb, h.error⟩
  · exact hf m table h.tlb

theorem createEntry_searching (m : MemoryManager) (virt : ℕ) :
    Searching m.tlb (m.createEntry virt) := by
  have hnext {m' : MemoryManager} (h : m'.tlb = m.tlb) (table index : ℕ) :
      Searching m.tlb (m'.ensureNextTable table index) := by
    rw [← h]
    exact ensureNextTable_searching m' table index
  unfold MemoryManager.createEntry
  apply (hnext rfl _ _).withTable
  intro m₁ pdpt h₁
  apply (hnext h₁ _ _).withTable
  intro m₂ pd h₂
  apply (hnext h₂ _ _).withTable
  intro m₃ pt h₃
  exact ⟨h₃, fun ret h => by cases h⟩

/-- What a call leaves in the cache: the entry of the page is dropped when it has changed. -/
def Flushed (m : MemoryManager) (virt : ℕ) (seen : List ℕ) (r : MemoryManager × ℤ) : Prop :=
  (r.2 ≠ 0 → r.1.tlb = m.tlb) ∧
    (r.2 = 0 → r.1.tlb = Cache.drop (seen.foldl (Cache.fill r.1.walk) m.tlb) (virt / pageSize))

/-- The store of an entry, the lookups after it, and `invlpg`. -/
theorem setWord_flushed (hm : m'.tlb = m.tlb) (virt entry value : ℕ) (seen : List ℕ) :
    Flushed m virt seen (((m'.setWord entry value).lookUp seen).flushTlbPage virt, 0) := by
  constructor
  · exact fun h => absurd rfl h
  · intro _
    rw [← hm]
    rfl

theorem mapPage_flushed (m : MemoryManager) (virt phys flags : ℕ) (seen : List ℕ) :
    Flushed m virt seen (m.mapPage virt phys flags seen) := by
  obtain ⟨htlb, herror⟩ := createEntry_searching m virt
  unfold MemoryManager.mapPage
  split
  next => exact ⟨fun _ => rfl, by simp [einval]⟩
  next =>
    generalize m.createEntry virt = r at htlb herror
    obtain ⟨m', ret | entry⟩ := r
    · obtain rfl := herror ret rfl
      exact ⟨fun _ => htlb, by simp [enomem]⟩
    · simp only
      split
      next => exact ⟨fun _ => htlb, by simp [eexist]⟩
      next => exact setWord_flushed htlb virt entry _ seen

theorem unmapPage_flushed (m : MemoryManager) (virt : ℕ) (seen : List ℕ) :
    Flushed m virt seen (m.unmapPage virt seen) := by
  unfold MemoryManager.unmapPage
  split
  next => exact ⟨fun _ => rfl, by simp [einval]⟩
  next =>
    split
    next => exact ⟨fun _ => rfl, by simp [enoent]⟩
    next entry _ =>
      split
      next => exact ⟨fun _ => rfl, by simp [enoent]⟩
      next => exact setWord_flushed rfl virt entry 0 seen

/-- A call that changes at most the leaf entry of its page, and only if it returns 0. -/
theorem Flushed.coherent {r : MemoryManager × ℤ} (h : Flushed m virt seen r)
    (hc : Cache.Coherent m.tlb m.walk) (hfail : r.2 ≠ 0 → r.1.walk = m.walk)
    (hother : ∀ k, k ≠ virt / pageSize → r.1.walk k = m.walk k) :
    Cache.Coherent r.1.tlb r.1.walk := by
  by_cases hret : r.2 = 0
  · rw [h.2 hret]
    exact ((hc.but hother).fills seen).drop
  · rw [h.1 hret, hfail hret]
    exact hc

/-- The pages that `map_page` has taken are tables now. -/
theorem mapPage_laid (ht : TreeTables st) (hs : FreshSupply st) (hzero : 0 ∉ st.supply)
    (virt phys flags : ℕ) : ∃ taken, st.supply = taken ++ (mapPage st virt phys flags).1.supply ∧
      ∀ page ∈ taken, ∃ p, p ≠ [] ∧ p.length ≤ 3 ∧
        (mapPage st virt phys flags).1.tableAt p = some (page / pageSize) := by
  have hlinked {st' : PageTables} {frames rest : List ℕ}
      (hlaid : Laid st st' (tablePath virt) frames rest) {page : ℕ}
      (hp : page ∈ frames.map (· * pageSize)) :
      ∃ p, p ≠ [] ∧ p.length ≤ 3 ∧ st'.tableAt p = some (page / pageSize) := by
    obtain ⟨f, hf, rfl⟩ := List.mem_map.mp hp
    obtain ⟨r, i, s, hpath, htable, -⟩ := hlaid.linked f hf
    refine ⟨r ++ [i], by simp, ?_, ?_⟩
    · have hlen := congrArg List.length hpath
      simp only [tablePath, List.length_append, List.length_cons, List.length_nil] at hlen ⊢
      omega
    · rw [Nat.mul_div_cancel _ (by decide)]
      exact htable
  have hresult := mapPage_result ht hs virt phys flags
  generalize mapPage st virt phys flags = r at hresult
  cases hresult with
  | unaligned _ => exact ⟨[], rfl, by simp⟩
  | present _ _ => exact ⟨[], rfl, by simp⟩
  | mapped st' frames t _ _ hlaid htable =>
    refine ⟨_, hlaid.supply, ?_⟩
    intro page hp
    obtain ⟨p, hne, hlen, hpt⟩ := hlinked hlaid hp
    exact ⟨p, hne, hlen, (setLeaf_tableAt hlaid.grows.shaped htable hlen).trans hpt⟩
  | noMemory st' frames rest _ _ hlaid _ hhead hsupply =>
    -- The free list has no 0 in it, so it has come to its end.
    have hrest : rest = [] := by
      cases hr : rest with
      | nil => rfl
      | cons page rest' =>
        rw [hr] at hhead
        obtain rfl : page = 0 := hhead
        rw [hlaid.supply, hr] at hzero
        simp at hzero
    rw [hrest] at hsupply hlaid
    refine ⟨_, ?_, fun page hp => hlinked hlaid hp⟩
    rw [hsupply]
    exact hlaid.supply

theorem aligned_iff : ¬ Unaligned virt phys ↔ pageSize ∣ virt ∧ pageSize ∣ phys := by
  unfold Unaligned
  rw [land_pageOffset, land_pageOffset, not_or, not_not, not_not, Nat.dvd_iff_mod_eq_zero,
    Nat.dvd_iff_mod_eq_zero]

/-- Pages other than that of `virt`, by their numbers. -/
theorem page_ne {k : ℕ} (hk : k ≠ virt / pageSize) : k * pageSize / pageSize ≠ virt / pageSize := by
  rwa [Nat.mul_div_cancel _ (by decide)]

/-- A call that follows one on the tables, changes at most the leaf entry of its page, and keeps
what was a table. -/
theorem Parted.called {r : MemoryManager × ℤ} {r' : PageTables × ℤ} (h : Parted pool σ st laid)
    (hpool : Pool pool) (hanswer : SameAnswer r r') (hflushed : Flushed σ.machine virt seen r)
    (hcan : Canonical virt) (hv : pageSize ∣ virt) (htree : TreeTables r'.1)
    (hother : ∀ u, Canonical u → Canonical virt → u / pageSize ≠ virt / pageSize →
      r'.1.leafOf u = st.leafOf u)
    (hfail : r'.2 ≠ 0 → r'.1.leafOf virt = st.leafOf virt) {k : ℕ} (huses : Uses k st r'.1)
    (htables : ∀ p t, p.length ≤ 3 → st.tableAt p = some t → r'.1.tableAt p = some t)
    {taken : List ℕ} (htaken : st.supply = taken ++ r'.1.supply)
    (hlaid : ∀ page ∈ taken, ∃ p, p ≠ [] ∧ p.length ≤ 3 ∧ r'.1.tableAt p = some (page / pageSize))
    {mapped : List Mapping}
    (hmapped : ∀ e ∈ mapped, Canonical e.virt ∧ pageSize ∣ e.virt ∧ MapFlags e.flags ∧
      e.phys ∈ σ.held ∧ r'.1.leafOf e.virt = some (leafEntry e.phys e.flags)) :
    Parted pool ⟨r.1, σ.held, mapped⟩ r'.1 (taken ++ laid) := by
  have hfresh : FreshSupply (st.withSupply (σ.held ++ st.supply)) := by
    constructor
    · exact ((h.nodup hpool).sublist (List.sublist_append_left _ _)).filter _
    · intro page hp _
      obtain ⟨-, hdvd, hlt⟩ := h.bounds hpool hp
      exact ⟨hdvd, hlt, h.spare page hp⟩
  have hparts : (σ.held ++ r'.1.supply ++ (taken ++ laid)).Perm (σ.held ++ st.supply ++ laid) := by
    rw [htaken, ← List.append_assoc]
    apply List.Perm.append_right
    rw [List.append_assoc]
    exact List.perm_append_comm.append_left σ.held
  have hwalk {k : ℕ} (hk : k ≠ virt / pageSize) : r.1.walk k = σ.machine.walk k := by
    apply walk_congr h.follows h.tree hanswer.follows htree
    intro hc
    exact hother _ hc hcan (page_ne hk)
  refine ⟨hanswer.follows, htree, hparts.trans h.parts, ?_, ?_, hmapped, ?_⟩
  · intro page hp p hlen
    have hne := (hpool.pages page ((hparts.trans h.parts).subset (List.mem_append_left _ hp))).1
    exact ((huses.fresh hfresh).fresh page hp hne).2.2 p hlen
  · intro page hp
    rcases List.mem_append.mp hp with hnew | hold
    · exact hlaid page hnew
    · obtain ⟨p, hne, hlen, htable⟩ := h.laid page hold
      exact ⟨p, hne, hlen, htables p _ hlen htable⟩
  · apply hflushed.coherent h.coherent _ fun k hk => hwalk hk
    intro hret
    funext k
    by_cases hk : k = virt / pageSize
    · apply walk_congr h.follows h.tree hanswer.follows htree
      intro _
      rw [hk, Nat.div_mul_cancel hv]
      exact hfail (hanswer.answer ▸ hret)
    · exact hwalk hk

theorem Parted.map (h : Parted pool σ st laid) (hpool : Pool pool)
    (ha : σ.Admissible pool (.map virt phys flags seen)) :
    ∃ σ' laid', σ.step (.map virt phys flags seen) = .ok σ' ∧
      Parted pool σ' (mapPage st virt phys flags).1 laid' ∧
      (σ.machine.mapPage virt phys flags seen).2 = (mapPage st virt phys flags).2 := by
  obtain ⟨hcan, hflags, hheld⟩ := ha
  have hs := h.fresh hpool
  have hsame := h.follows.mapPage h.tree hs virt phys flags seen
  have hstep : σ.step (.map virt phys flags seen) =
      .ok ⟨(σ.machine.mapPage virt phys flags seen).1, σ.held,
        if (σ.machine.mapPage virt phys flags seen).2 = 0 then ⟨virt, phys, flags⟩ :: σ.mapped
        else σ.mapped⟩ := rfl
  by_cases haligned : Unaligned virt phys
  · have hcall : σ.machine.mapPage virt phys flags seen = (σ.machine, -einval) := if_pos haligned
    have hcall' : mapPage st virt phys flags = (st, -einval) := if_pos haligned
    rw [hcall] at hstep
    rw [hcall, hcall']
    exact ⟨_, laid, hstep, h, rfl⟩
  · obtain ⟨hv, hp⟩ := aligned_iff.mp haligned
    obtain ⟨-, -, hlt⟩ := h.bounds hpool (List.mem_append_left _ (hheld haligned))
    obtain ⟨htree, houtcome, hother, huses, -⟩ := mapPage_spec h.tree hs hv hp hlt hflags
    have hzero : 0 ∉ st.supply := fun hmem => h.follows.list.ne_zero hmem rfl
    obtain ⟨taken, htaken, hlaid⟩ := mapPage_laid h.tree hs hzero virt phys flags
    refine ⟨_, taken ++ laid, hstep, ?_, hsame.answer⟩
    apply h.called hpool hsame (mapPage_flushed _ _ _ _ _) hcan hv htree hother _ huses
      (fun p t hlen htable => mapPage_tables h.tree hs hlen htable) htaken hlaid
    · intro e he
      rw [hsame.answer] at he
      generalize mapPage st virt phys flags = r' at houtcome hother he
      obtain ⟨st', ret⟩ := r'
      have hkept (hne : st.leafOf virt = none ∨ st'.leafOf virt = st.leafOf virt)
          (he : e ∈ σ.mapped) : Canonical e.virt ∧ pageSize ∣ e.virt ∧ MapFlags e.flags ∧
            e.phys ∈ σ.held ∧ st'.leafOf e.virt = some (leafEntry e.phys e.flags) := by
        obtain ⟨hc, hdvd, hf, hmem, hleaf⟩ := h.mapped e he
        refine ⟨hc, hdvd, hf, hmem, ?_⟩
        by_cases hpage : e.virt / pageSize = virt / pageSize
        · rw [leafOf_congr hpage] at hleaf ⊢
          rcases hne with hnone | hsame
          · rw [hnone] at hleaf
            cases hleaf
          · rw [hsame]
            exact hleaf
        · rw [hother e.virt hc hcan hpage]
          exact hleaf
      cases houtcome with
      | mapped hnone hnew =>
        rcases List.mem_cons.mp he with rfl | he
        · exact ⟨hcan, hv, hflags, hheld haligned, hnew⟩
        · exact hkept (.inl hnone) he
      | alreadyMapped _ hsame => exact hkept (.inr hsame) he
      | noMemory hnone _ => exact hkept (.inl hnone) he
    · intro hret
      generalize mapPage st virt phys flags = r' at houtcome hret
      obtain ⟨st', ret⟩ := r'
      cases houtcome with
      | mapped _ _ => exact absurd rfl hret
      | alreadyMapped _ hsame => exact hsame
      | noMemory hnone hnone' => exact hnone'.trans hnone.symm

theorem unmapPage_tables (ht : TreeTables st) {p : List (Fin 512)} (hp : p.length ≤ 3) :
    (unmapPage st virt).1.tableAt p = st.tableAt p := by
  unfold unmapPage
  split
  next => rfl
  next =>
    rw [findEntry_eq]
    cases htable : st.tableAt (tablePath virt) with
    | none => rfl
    | some t =>
      simp only [Option.map_some, Option.elim_some]
      split
      next => rfl
      next => exact setLeaf_tableAt ht htable hp

theorem unmapPage_supply (st : PageTables) (virt : ℕ) : (unmapPage st virt).1.supply = st.supply := by
  unfold unmapPage
  split
  next => rfl
  next =>
    split
    next => rfl
    next =>
      split
      next => rfl
      next => rfl

theorem Parted.unmap (h : Parted pool σ st laid) (hpool : Pool pool) (hcan : Canonical virt)
    (seen : List ℕ) :
    ∃ σ', σ.step (.unmap virt seen) = .ok σ' ∧ Parted pool σ' (unmapPage st virt).1 laid ∧
      (σ.machine.unmapPage virt seen).2 = (unmapPage st virt).2 := by
  have hs := h.fresh hpool
  have hsame := h.follows.unmapPage hs virt seen
  have hstep : σ.step (.unmap virt seen) = .ok ⟨(σ.machine.unmapPage virt seen).1, σ.held,
      if (σ.machine.unmapPage virt seen).2 = 0 then σ.mapped.filter (·.virt ≠ virt)
      else σ.mapped⟩ := rfl
  by_cases haligned : virt &&& (pageSize - 1) = 0
  · have hv : pageSize ∣ virt := by
      rw [land_pageOffset] at haligned
      exact Nat.dvd_of_mod_eq_zero haligned
    obtain ⟨htree, hnone, hret, hother, huses⟩ := unmapPage_spec h.tree hv
    refine ⟨_, hstep, ?_, hsame.answer⟩
    have htaken : st.supply = [] ++ (unmapPage st virt).1.supply := (unmapPage_supply st virt).symm
    apply h.called hpool hsame (unmapPage_flushed _ _ _) hcan hv htree hother _ huses
      (fun p t hlen htable => (unmapPage_tables h.tree hlen).trans htable) htaken (by simp)
    · intro e he
      rw [hsame.answer, hret] at he
      have hmem : e ∈ σ.mapped ∧ (e.virt = virt → st.leafOf virt = none) := by
        cases hleaf : st.leafOf virt with
        | none =>
          rw [hleaf] at he
          exact ⟨by simpa [enoent] using he, fun _ => rfl⟩
        | some w =>
          rw [hleaf] at he
          have hboth : e ∈ σ.mapped ∧ ¬ e.virt = virt := by simpa using he
          exact ⟨hboth.1, fun hvirt => absurd hvirt hboth.2⟩
      obtain ⟨hc, hdvd, hf, hheld, hleaf⟩ := h.mapped e hmem.1
      refine ⟨hc, hdvd, hf, hheld, ?_⟩
      have hne : e.virt ≠ virt := by
        intro hvirt
        rw [hvirt, hmem.2 hvirt] at hleaf
        cases hleaf
      rw [hother e.virt hc hcan]
      · exact hleaf
      · intro hpage
        apply hne
        rw [← Nat.div_mul_cancel hdvd, hpage, Nat.div_mul_cancel hv]
    · intro hne
      rw [hret] at hne
      cases hleaf : st.leafOf virt with
      | none => exact hnone
      | some w =>
        rw [hleaf] at hne
        exact absurd rfl hne
  · have hcall : σ.machine.unmapPage virt seen = (σ.machine, -einval) := if_pos haligned
    have hcall' : unmapPage st virt = (st, -einval) := if_pos haligned
    rw [hcall] at hstep
    rw [hcall, hcall']
    exact ⟨_, hstep, h, rfl⟩

/-! ### The kernel's own root -/

theorem pageTablesInit_supply (st : PageTables) (k : ℕ) : (pageTablesInit st k).supply = st.supply := by
  have hloop : ∀ (l : List ℕ) (st' : PageTables), (l.foldl (fun st' index =>
      st'.setWord (k + 8 * index) (tableWord st'.mem st.root index)) st').supply = st'.supply := by
    intro l
    induction l with
    | nil => exact fun _ => rfl
    | cons index l ih => exact fun st' => ih _
  simp only [pageTablesInit, hloop]

/-- The tree from the new root: the same tables below it. -/
theorem pageTablesInit_tables {k : ℕ} (hk : k < 2 ^ 40)
    (hfresh : ∀ p, p.length ≤ 3 → st.tableAt p ≠ some k) :
    (pageTablesInit st (k * pageSize)).frame = k ∧
      Copied st.frame k 512 st (pageTablesInit st (k * pageSize)) ∧
      ∀ i p, (i :: p).length ≤ 4 →
        (pageTablesInit st (k * pageSize)).tableAt (i :: p) = st.tableAt (i :: p) := by
  have hframe : (pageTablesInit st (k * pageSize)).frame = k := by
    have hroot : (pageTablesInit st (k * pageSize)).root = k * pageSize := by
      change (k * pageSize) &&& x86PageMask = k * pageSize
      rw [x86PageMask_eq, Bits.land_high (by decide) (by simp only [pageSize]; omega)]
      exact Nat.div_mul_cancel (Nat.dvd_mul_left _ _)
    rw [PageTables.frame, hroot, Nat.mul_div_cancel _ (by decide)]
  have hcopied : Copied st.frame k 512 st (pageTablesInit st (k * pageSize)) := by
    apply pageTablesInit_copied
    rintro rfl
    exact hfresh [] (by simp) rfl
  refine ⟨hframe, hcopied, ?_⟩
  intro i p hlen
  unfold PageTables.tableAt
  rw [hframe, Radix.table, Radix.table, hcopied.same i i.isLt]
  apply Option.bind_congr
  intro t ht
  apply Radix.table_congr
  intro q₁ j q₂ t' hsplit ht'
  apply hcopied.other
  -- The table is one of the old tree, so it is not the new root.
  rintro rfl
  apply hfresh (i :: q₁)
  · rw [hsplit] at hlen
    simp only [List.length_cons, List.length_append] at hlen ⊢
    omega
  · rw [PageTables.tableAt, Radix.table, ht]
    exact ht'

theorem pageTablesInit_tree {k : ℕ} (hk : k < 2 ^ 40)
    (hfresh : ∀ p, p.length ≤ 3 → st.tableAt p ≠ some k) (ht : TreeTables st) :
    TreeTables (pageTablesInit st (k * pageSize)) ∧
      ∀ virt, (pageTablesInit st (k * pageSize)).leafOf virt = st.leafOf virt := by
  obtain ⟨hframe, hcopied, htable⟩ := pageTablesInit_tables hk hfresh
  have hroot : (pageTablesInit st (k * pageSize)).tableAt [] = some k := by
    rw [PageTables.tableAt, Radix.table_nil, hframe]
  refine ⟨⟨?_, ?_⟩, ?_⟩
  · intro p q t hp hq hpt hqt
    cases p with
    | nil =>
      obtain rfl : k = t := Option.some.inj (hroot.symm.trans hpt)
      cases q with
      | nil => rfl
      | cons j q =>
        exact absurd ((htable j q (by omega)).symm.trans hqt) (hfresh (j :: q) hq)
    | cons i p =>
      have hpt' : st.tableAt (i :: p) = some t := (htable i p (by omega)).symm.trans hpt
      cases q with
      | nil =>
        obtain rfl : k = t := Option.some.inj (hroot.symm.trans hqt)
        exact absurd hpt' (hfresh (i :: p) hp)
      | cons j q =>
        exact ht.distinct _ _ t hp hq hpt' ((htable j q (by omega)).symm.trans hqt)
  · intro p t hp hpt i hpres
    cases p with
    | nil =>
      obtain rfl : k = t := Option.some.inj (hroot.symm.trans hpt)
      rw [hcopied.same i i.isLt] at hpres ⊢
      exact ht.noLarge [] st.frame (by simp) rfl i hpres
    | cons j p =>
      have hpt' : st.tableAt (j :: p) = some t := (htable j p (by omega)).symm.trans hpt
      have hne : t ≠ k := by
        rintro rfl
        exact hfresh (j :: p) (by omega) hpt'
      rw [hcopied.other t i hne] at hpres ⊢
      exact ht.noLarge _ t hp hpt' i hpres
  · intro virt
    have hpath := htable (indexAt virt 39) [indexAt virt 30, indexAt virt 21] (by simp)
    unfold PageTables.leafOf Radix.leaf
    rw [show Radix.table _ _ (pageTablesInit st (k * pageSize)).frame (tablePath virt) =
      st.tableAt (tablePath virt) from hpath]
    apply Option.bind_congr
    intro t htab
    have hne : t ≠ k := by
      rintro rfl
      exact hfresh (tablePath virt) le_rfl htab
    rw [hcopied.other t _ hne]

theorem Parted.pageTablesInit {kernelPml4 : ℕ} (h : Parted pool σ st laid) (hpool : Pool pool)
    (ha : σ.Admissible pool (.pageTablesInit kernelPml4)) :
    ∃ σ', σ.step (.pageTablesInit kernelPml4) = .ok σ' ∧
      Parted pool σ' (pageTablesInit st kernelPml4) laid ∧
      ∀ virt, (Mm.pageTablesInit st kernelPml4).leafOf virt = st.leafOf virt := by
  obtain ⟨hdvd, hlt, hout, hnot, -⟩ := ha
  obtain ⟨k, rfl⟩ := hdvd
  rw [Nat.mul_comm] at hlt hout hnot ⊢
  rw [Nat.mul_div_cancel _ (by decide)] at hnot
  have hk : k < 2 ^ 40 := by
    simp only [pageSize] at hlt
    omega
  have hfresh : ∀ p, p.length ≤ 3 → st.tableAt p ≠ some k := by
    intro p hp htable
    exact hnot (h.isTable.mpr ⟨p, hp, htable⟩)
  obtain ⟨-, -, htable⟩ := pageTablesInit_tables hk hfresh
  obtain ⟨htree, hleaf⟩ := pageTablesInit_tree hk hfresh h.tree
  have hsupply := pageTablesInit_supply st (k * pageSize)
  have hfollows : Follows (σ.machine.pageTablesInit (k * pageSize))
      (Mm.pageTablesInit st (k * pageSize)) := by
    apply h.follows.pageTablesInit
    intro free hfree
    have hmem := List.mem_append_right σ.held hfree
    apply pages_apart (h.bounds hpool hmem).2.1 (Nat.dvd_mul_left _ _)
    rintro rfl
    exact hout (h.parts.subset (List.mem_append_left _ hmem))
  refine ⟨_, rfl, ⟨hfollows, htree, ?_, ?_, ?_, ?_, Cache.coherent_empty⟩, hleaf⟩
  · rw [hsupply]
    exact h.parts
  · rw [hsupply]
    intro page hp p hlen
    cases p with
    | nil =>
      intro hroot
      have hpage := h.bounds hpool hp
      have hkp : k = page / pageSize := by
        obtain ⟨hframe, -, -⟩ := pageTablesInit_tables hk hfresh
        rw [← hframe]
        exact Option.some.inj hroot
      apply hout
      rw [hkp, Nat.div_mul_cancel hpage.2.1]
      exact h.parts.subset (List.mem_append_left _ hp)
    | cons i p =>
      rw [htable i p (by omega)]
      exact h.spare page hp _ hlen
  · intro page hp
    obtain ⟨p, hne, hlen, hpt⟩ := h.laid page hp
    cases p with
    | nil => exact absurd rfl hne
    | cons i p => exact ⟨i :: p, hne, hlen, (htable i p (by omega)).trans hpt⟩
  · intro e he
    obtain ⟨hc, hv, hf, hheld, hl⟩ := h.mapped e he
    exact ⟨hc, hv, hf, hheld, (hleaf _).trans hl⟩

/-! ### One step -/

/-- The tables of `st'` are those of `st`, with `root` in the place of the old root if there is a
new one. -/
def TablesKept (st st' : PageTables) (root : Option ℕ) : Prop :=
  ∀ p t, p.length ≤ 3 → st'.tableAt p = some t → st.tableAt p = some t ∨ root = some (t * pageSize)

/-- The page that becomes the root. -/
def VmAction.newRoot : VmAction → Option ℕ
  | .pageTablesInit kernelPml4 => some kernelPml4
  | _ => none

/-- What a step does to the tables: calls of `map_page` and `unmap_page` do what they do on the
tables, and all other steps leave the leaf entries alone, and the tables but for a new root. -/
inductive LeafEffect (st st' : PageTables) : VmAction → Prop
  | map {virt phys flags : ℕ} {seen : List ℕ} : st' = (mapPage st virt phys flags).1 →
      LeafEffect st st' (.map virt phys flags seen)
  | unmap {virt : ℕ} {seen : List ℕ} : st' = (unmapPage st virt).1 →
      LeafEffect st st' (.unmap virt seen)
  | other {act : VmAction} : (∀ virt, st'.leafOf virt = st.leafOf virt) →
      TablesKept st st' act.newRoot → LeafEffect st st' act

theorem SameTables.kept (h : SameTables st st') (root : Option ℕ) : TablesKept st st' root :=
  fun _ _ hp htable => .inl ((h.tableAt_eq (Nat.le_succ_of_le hp)).symm.trans htable)

theorem tablesKept_pageTablesInit {kernelPml4 : ℕ} (h : Parted pool σ st laid)
    (ha : σ.Admissible pool (.pageTablesInit kernelPml4)) :
    TablesKept st (pageTablesInit st kernelPml4) (some kernelPml4) := by
  obtain ⟨⟨k, rfl⟩, hlt, -, hnot, -⟩ := ha
  rw [Nat.mul_comm] at hlt ⊢
  rw [Nat.mul_div_cancel_left _ (by decide)] at hnot
  have hk : k < 2 ^ 40 := by
    simp only [pageSize] at hlt
    omega
  have hfresh : ∀ p, p.length ≤ 3 → st.tableAt p ≠ some k :=
    fun p hp hat => hnot (h.isTable.mpr ⟨p, hp, hat⟩)
  obtain ⟨hframe, -, htable⟩ := pageTablesInit_tables hk hfresh
  intro p t hp hat
  cases p with
  | nil =>
    have hroot : (pageTablesInit st (k * pageSize)).tableAt [] = some k := congrArg some hframe
    obtain rfl : k = t := Option.some.inj (hroot.symm.trans hat)
    exact .inr rfl
  | cons i p => exact .inl ((htable i p (Nat.le_succ_of_le hp)).symm.trans hat)

/-- Every admissible step completes and keeps the invariant. -/
theorem Parted.step {act : VmAction} (h : Parted pool σ st laid) (hpool : Pool pool)
    (ha : σ.Admissible pool act) : ∃ σ' st' laid', σ.step act = .ok σ' ∧
      Parted pool σ' st' laid' ∧ LeafEffect st st' act := by
  have hstay (st' : PageTables) (hsame : SameTables st st') (act : VmAction) :
      LeafEffect st st' act := .other hsame.leafOf_eq (hsame.kept _)
  have hrefl : SameTables st st := ⟨rfl, fun _ _ _ _ _ => rfl⟩
  cases act with
  | alloc =>
    obtain ⟨σ', hs, hst, -⟩ := h.alloc hpool
    exact ⟨σ', _, laid, hs, hst, hstay st.takePage.1 ⟨rfl, fun _ _ _ _ _ => rfl⟩ _⟩
  | free page =>
    obtain ⟨σ', st', hs, hst, hsame, -⟩ := h.free hpool ha
    exact ⟨σ', st', laid, hs, hst, hstay st' hsame _⟩
  | map virt phys flags seen =>
    obtain ⟨σ', laid', hs, hst, -⟩ := h.map hpool ha
    exact ⟨σ', _, laid', hs, hst, .map rfl⟩
  | unmap virt seen =>
    obtain ⟨σ', hs, hst, -⟩ := h.unmap hpool ha.1 seen
    exact ⟨σ', _, laid, hs, hst, .unmap rfl⟩
  | pageTablesInit kernelPml4 =>
    obtain ⟨σ', hs, hst, hleaf⟩ := h.pageTablesInit hpool ha
    exact ⟨σ', _, laid, hs, hst, .other hleaf (tablesKept_pageTablesInit h ha)⟩
  | lookUp seen =>
    exact ⟨_, st, laid, rfl, h.tlb (h.coherent.fills seen), hstay st hrefl _⟩
  | forget page =>
    exact ⟨_, st, laid, rfl, h.tlb (h.coherent.drop page), hstay st hrefl _⟩
  | poke a v =>
    obtain ⟨σ', st', hs, hst, hsame, -⟩ := h.pokes hpool ha
    exact ⟨σ', st', laid, hs, hst, hstay st' hsame _⟩
  | write virt v =>
    obtain ⟨σ', st', hs, hst, hsame, -⟩ := h.writes hpool ha
    exact ⟨σ', st', laid, hs, hst, hstay st' hsame _⟩

end

end Tianole.Mm
