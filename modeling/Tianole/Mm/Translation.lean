import Tianole.Mm.Partition

/-! What an access of the processor goes to, in every run of the memory manager: it is what
`virt_to_phys` says, whatever the processor has cached, and only a `map_page` or `unmap_page` that
returns 0 changes it, for its own page. The memory of mapped pages is nobody else's. -/
namespace Tianole.Mm
open Memory Word Runs WordList

namespace MemoryManager

/-- The number of tables that are missing on the path of an address. -/
def lacks (m : MemoryManager) (virt : ℕ) : ℕ := (m.tables []).lacks (tablePath virt)

/-- The byte that is read at a virtual address, unless the access faults. -/
def read (m : MemoryManager) (virt : ℕ) : Option UInt8 := (m.access virt).map m.mem

end MemoryManager

section
variable {pool laid : List ℕ} {σ σ' : VmSystem} {m : MemoryManager} {st st' : PageTables}
  {virt phys flags u : ℕ} {seen : List ℕ}

theorem Follows.lacks (h : Follows m st) (virt : ℕ) : m.lacks virt = st.lacks (tablePath virt) := by
  unfold MemoryManager.lacks PageTables.lacks PageTables.frame PageTables.root
  rw [h.mem, h.cr3]
  rfl

/-- Equal leaf entries, equal accesses. -/
theorem Parted.access_congr (h : Parted pool σ st laid) {laid' : List ℕ}
    (h' : Parted pool σ' st' laid') (hu : Canonical u) (hleaf : st'.leafOf u = st.leafOf u) :
    σ'.machine.access u = σ.machine.access u := by
  rw [h.follows.access_eq h.tree h.coherent hu, h'.follows.access_eq h'.tree h'.coherent hu,
    virtToPhys_eq, virtToPhys_eq, hleaf]

theorem Parted.access_isSome (h : Parted pool σ st laid) (hu : Canonical u) :
    (σ.machine.access u).isSome = (st.leafOf u).isSome := by
  rw [h.follows.access_eq h.tree h.coherent hu, virtToPhys_eq]
  cases st.leafOf u <;> rfl

theorem Parted.virtToPhys_eq (h : Parted pool σ st laid) (virt : ℕ) (out : Bool) :
    σ.machine.virtToPhys virt out = virtToPhys st virt out := by
  unfold MemoryManager.virtToPhys Mm.virtToPhys PageTables.root
  rw [h.follows.mem, h.follows.cr3]
  rfl

/-- The offsets of a canonical page are canonical. -/
theorem canonical_offset {o : ℕ} (hc : Canonical virt) (hv : pageSize ∣ virt) (ho : o < pageSize) :
    Canonical (virt + o) := by
  simp only [Canonical, pageSize] at *
  omega

/-- What `map_page` returns. -/
theorem Parted.map_ret (h : Parted pool σ st laid) (hpool : Pool pool)
    (ha : σ.Admissible pool (.map virt phys flags seen)) : (mapPage st virt phys flags).2 =
      if Unaligned virt phys then -einval
      else if (σ.machine.access virt).isSome then -eexist
      else if σ.machine.lacks virt ≤ σ.machine.pages.freePageCount then 0 else -enomem := by
  obtain ⟨hcan, hflags, hheld⟩ := ha
  have hs := h.fresh hpool
  by_cases haligned : Unaligned virt phys
  · rw [if_pos haligned]
    exact congrArg Prod.snd (show mapPage st virt phys flags = (st, -einval) from if_pos haligned)
  rw [if_neg haligned, h.access_isSome hcan, h.follows.lacks, h.follows.count]
  cases hleaf : st.leafOf virt with
  | some e =>
    rw [mapPage_of_leaf haligned hleaf]
    rfl
  | none =>
    have hzero : 0 ∉ st.supply := fun hmem => h.follows.list.ne_zero hmem rfl
    have hneeds : (mapPage st virt phys flags).2 = 0 ↔
        st.lacks (tablePath virt) ≤ pagesAhead st.supply :=
      (mapPage_needs h.tree hs haligned hleaf).1
    rw [pagesAhead_of_ne hzero] at hneeds
    rw [Option.isSome_none, if_neg (by simp)]
    split
    next hle => exact hneeds.mpr hle
    next hgt =>
      obtain ⟨hv, hp⟩ := aligned_iff.mp haligned
      obtain ⟨-, -, hlt⟩ := h.bounds hpool (List.mem_append_left _ (hheld haligned))
      obtain ⟨-, houtcome, -⟩ := mapPage_spec h.tree hs hv hp hlt hflags
      have hne : (mapPage st virt phys flags).2 ≠ 0 := fun h0 => hgt (hneeds.mp h0)
      generalize mapPage st virt phys flags = r at houtcome hne
      obtain ⟨st', ret⟩ := r
      cases houtcome with
      | mapped _ _ => exact absurd rfl hne
      | alreadyMapped hsome _ =>
        rw [hleaf] at hsome
        cases hsome
      | noMemory _ _ => rfl

/-- Where the accesses go after `map_page`. -/
theorem Parted.map_access (h : Parted pool σ st laid) (hpool : Pool pool)
    (ha : σ.Admissible pool (.map virt phys flags seen)) {laid' : List ℕ}
    (h' : Parted pool σ' (mapPage st virt phys flags).1 laid') :
    ((mapPage st virt phys flags).2 = 0 →
      ∀ o < pageSize, σ'.machine.access (virt + o) = some (phys + o)) ∧
    ∀ u, Canonical u → ((mapPage st virt phys flags).2 = 0 → u / pageSize ≠ virt / pageSize) →
      σ'.machine.access u = σ.machine.access u := by
  obtain ⟨hcan, hflags, hheld⟩ := ha
  have hs := h.fresh hpool
  by_cases haligned : Unaligned virt phys
  · have hcall : mapPage st virt phys flags = (st, -einval) := if_pos haligned
    rw [hcall] at h' ⊢
    exact ⟨by simp [einval], fun u hu _ => h.access_congr h' hu rfl⟩
  obtain ⟨hv, hp⟩ := aligned_iff.mp haligned
  obtain ⟨-, -, hlt⟩ := h.bounds hpool (List.mem_append_left _ (hheld haligned))
  obtain ⟨-, houtcome, hother, -⟩ := mapPage_spec h.tree hs hv hp hlt hflags
  generalize mapPage st virt phys flags = r at houtcome hother h'
  obtain ⟨st', ret⟩ := r
  -- A call that fails leaves the entry of its own page alone too.
  have hsame (hleaf : st'.leafOf virt = st.leafOf virt) (u : ℕ) (hu : Canonical u) :
      σ'.machine.access u = σ.machine.access u := by
    apply h.access_congr h' hu
    by_cases hpage : u / pageSize = virt / pageSize
    · rw [leafOf_congr hpage, leafOf_congr hpage, hleaf]
    · exact hother u hu hcan hpage
  cases houtcome with
  | mapped _ hnew =>
    constructor
    · intro _ o ho
      rw [h'.follows.access_eq h'.tree h'.coherent (canonical_offset hcan hv ho),
        virtToPhys_of_leaf hnew hv hp hlt hflags ho]
      rfl
    · intro u hu hpage
      exact h.access_congr h' hu (hother u hu hcan (hpage rfl))
  | alreadyMapped _ hleaf => exact ⟨by simp, fun u hu _ => hsame hleaf u hu⟩
  | noMemory hnone hnone' =>
    exact ⟨by simp, fun u hu _ => hsame (hnone'.trans hnone.symm) u hu⟩

/-- What `unmap_page` returns, and where the accesses go after it. -/
theorem Parted.unmap_access (h : Parted pool σ st laid)
    (hcan : Canonical virt) {laid' : List ℕ} (h' : Parted pool σ' (unmapPage st virt).1 laid') :
    ((unmapPage st virt).2 = if ¬ pageSize ∣ virt then -einval
      else if (σ.machine.access virt).isSome then 0 else -enoent) ∧
    ((unmapPage st virt).2 = 0 → ∀ o < pageSize, σ'.machine.access (virt + o) = none) ∧
    ∀ u, Canonical u → ((unmapPage st virt).2 = 0 → u / pageSize ≠ virt / pageSize) →
      σ'.machine.access u = σ.machine.access u := by
  by_cases hv : pageSize ∣ virt
  · obtain ⟨-, hnone, hret, hother, -⟩ := unmapPage_spec h.tree hv
    refine ⟨?_, ?_, ?_⟩
    · rw [if_neg (not_not.mpr hv), h.access_isSome hcan]
      exact hret
    · intro _ o ho
      rw [h'.follows.access_eq h'.tree h'.coherent (canonical_offset hcan hv ho),
        virtToPhys_of_none hnone hv ho]
      rfl
    · intro u hu hpage
      apply h.access_congr h' hu
      by_cases hup : u / pageSize = virt / pageSize
      · rw [leafOf_congr hup, leafOf_congr hup, hnone]
        cases hleaf : st.leafOf virt with
        | none => rfl
        | some e =>
          rw [hret, hleaf] at hpage
          exact absurd hup (hpage rfl)
      · exact hother u hu hcan hup
  · have hoffset : virt &&& (pageSize - 1) ≠ 0 := by
      rw [land_pageOffset]
      exact fun h0 => hv (Nat.dvd_of_mod_eq_zero h0)
    have hcall : unmapPage st virt = (st, -einval) := if_pos hoffset
    rw [hcall] at h' ⊢
    rw [if_pos hv]
    exact ⟨rfl, by simp [einval], fun u hu _ => h.access_congr h' hu rfl⟩

end

/-- The steps that call `map_page` or `unmap_page`. -/
def VmAction.Remaps : VmAction → Prop
  | .map .. => True
  | .unmap .. => True
  | _ => False

/-- In every run, an access goes where `virt_to_phys` says, whatever the processor has cached and
whenever it does so. `map_page` returns what the state of the tables and the number of free pages
call for; when it returns 0 the page is mapped, and nothing else changes; `unmap_page` likewise; and
no other step changes where an access goes. -/
theorem translations_exact {env : BootEnv} {mem₀ : Mem} {σ : VmSystem} (hok : BootTablesOk env mem₀)
    (h : VmSystem.Reachable env mem₀ σ) :
    (∀ virt, Canonical virt →
      σ.machine.access virt = (σ.machine.virtToPhys virt true).toOption) ∧
    (∀ virt phys flags seen, σ.Admissible (usablePages env mem₀) (.map virt phys flags seen) →
      let r := σ.machine.mapPage virt phys flags seen
      (r.2 = if Unaligned virt phys then -einval
        else if (σ.machine.access virt).isSome then -eexist
        else if σ.machine.lacks virt ≤ σ.machine.pages.freePageCount then 0 else -enomem) ∧
      (r.2 = 0 → ∀ o < pageSize, r.1.access (virt + o) = some (phys + o)) ∧
      ∀ u, Canonical u → (r.2 = 0 → u / pageSize ≠ virt / pageSize) →
        r.1.access u = σ.machine.access u) ∧
    (∀ virt seen, Canonical virt →
      let r := σ.machine.unmapPage virt seen
      (r.2 = if ¬ pageSize ∣ virt then -einval
        else if (σ.machine.access virt).isSome then 0 else -enoent) ∧
      (r.2 = 0 → ∀ o < pageSize, r.1.access (virt + o) = none) ∧
      ∀ u, Canonical u → (r.2 = 0 → u / pageSize ≠ virt / pageSize) →
        r.1.access u = σ.machine.access u) ∧
    ∀ act σ', ¬ act.Remaps → σ.Admissible (usablePages env mem₀) act → σ.step act = .ok σ' →
      ∀ u, Canonical u → σ'.machine.access u = σ.machine.access u := by
  have hpool := hok.pool
  obtain ⟨st, laid, hst, -⟩ := h.parted hok
  refine ⟨?_, ?_, ?_, ?_⟩
  · intro virt hc
    rw [hst.virtToPhys_eq]
    exact hst.follows.access_eq hst.tree hst.coherent hc
  · intro virt phys flags seen ha
    obtain ⟨σ', laid', hs, hst', hret⟩ := hst.map hpool ha
    have hmachine : σ'.machine = (σ.machine.mapPage virt phys flags seen).1 :=
      congrArg VmSystem.machine (Except.ok.inj hs).symm
    have haccess := hst.map_access hpool ha hst'
    simp only
    rw [hret, ← hmachine]
    exact ⟨hst.map_ret hpool ha, haccess⟩
  · intro virt seen hc
    obtain ⟨σ', hs, hst', hret⟩ := hst.unmap hpool hc seen
    have hmachine : σ'.machine = (σ.machine.unmapPage virt seen).1 :=
      congrArg VmSystem.machine (Except.ok.inj hs).symm
    simp only
    rw [hret, ← hmachine]
    exact hst.unmap_access hc hst'
  · intro act σ' hremaps ha hs u hu
    obtain ⟨σ₁, st', laid', hs₁, hst', heffect⟩ := hst.step hpool ha
    obtain rfl := Except.ok.inj (hs₁.symm.trans hs)
    cases heffect with
    | map _ => exact absurd trivial hremaps
    | unmap _ => exact absurd trivial hremaps
    | other hleaf _ => exact hst.access_congr hst' hu (hleaf u)

/-- A page that is mapped, and then unmapped. -/
theorem translations_exact_mapped : ∃ σ, VmSystem.Reachable exampleEnv roomyBoot σ ∧
    σ.machine.access 0x400123 = some 0x100123 ∧
    (σ.machine.virtToPhys 0x400123 true).toOption = some 0x100123 ∧
    (σ.machine.unmapPage 0x400000 []).2 = 0 ∧
    (σ.machine.unmapPage 0x400000 []).1.access 0x400123 = none := by
  obtain ⟨σ, hσ, -, hmapped, -⟩ := roomyBoot_mapped
  obtain ⟨st, laid, hst, -⟩ := hσ.parted roomyBoot_ok
  have hentry : ⟨0x400000, 0x100000, pageWritable⟩ ∈ σ.mapped := by simp [hmapped]
  have haccess {o : ℕ} (ho : o < pageSize) : σ.machine.access (0x400000 + o) = some (0x100000 + o) :=
    hst.access_mapped roomyBoot_ok.pool hentry ho
  have hbyte : σ.machine.access 0x400123 = some 0x100123 := haccess (o := 0x123) (by decide)
  obtain ⟨hexact, -, hunmap, -⟩ := translations_exact roomyBoot_ok hσ
  obtain ⟨hret, hnone, -⟩ := hunmap 0x400000 [] (.inl (by decide))
  have hzero : (σ.machine.unmapPage 0x400000 []).2 = 0 := by
    rw [hret, haccess (o := 0) (by decide)]
    decide
  refine ⟨σ, hσ, hbyte, ?_, hzero, hnone hzero 0x123 (by decide)⟩
  rw [← hexact 0x400123 (.inl (by decide)), hbyte]

/-! ### The bytes of held pages -/

section
variable {pool laid : List ℕ} {σ σ' : VmSystem} {st : PageTables} {mem mem' : Mem}
  {virt phys flags x : ℕ} {seen : List ℕ}

/-- A page whose words are the same has the same bytes. -/
theorem byte_of_frameWord (h : ∀ j, frameWord mem' (x / pageSize) j = frameWord mem (x / pageSize) j) :
    mem' x = mem x := by
  have hindex : x % pageSize / 8 < 512 := by
    simp only [pageSize]
    omega
  have hword := h ⟨x % pageSize / 8, hindex⟩
  have hdiv := Nat.div_add_mod' x pageSize
  apply eq_of_load_eq hword
  · simp only
    omega
  · simp only
    omega

/-- Byte `x` is neither in a table nor in a free page. -/
structure Outside (st : PageTables) (x : ℕ) : Prop where
  free : pageOf x ∉ st.supply
  table : ∀ p, p.length ≤ 3 → st.tableAt p ≠ some (x / pageSize)

/-- Such a byte is not changed by an entry that is written. -/
theorem Outside.setEntry (h : Outside st x) {p : List (Fin 512)} {t w : ℕ} (hp : p.length ≤ 3)
    (htable : st.tableAt p = some t) (i : Fin 512) :
    (st.setWord (t * pageSize + 8 * i) w).mem x = st.mem x := by
  apply byte_of_frameWord
  intro j
  apply frameWord_store_of_ne
  left
  rintro rfl
  exact h.table p hp htable

/-- Nor by laying tables. -/
theorem Outside.tablesLaid {st' : PageTables} {frames rest : List ℕ} (h : Outside st x)
    (hlaid : Laid st st' (tablePath virt) frames rest) : st'.mem x = st.mem x := by
  apply byte_of_frameWord
  intro j
  have hnot : x / pageSize ∉ frames := by
    intro hmem
    apply h.free
    rw [hlaid.supply]
    exact List.mem_append_left _ (List.mem_map_of_mem hmem)
  rcases hlaid.words _ j hnot with hsame | ⟨r, s, f, hpath, htable, -, -⟩
  · exact hsame
  · refine absurd htable (h.table r ?_)
    have hlen := congrArg List.length hpath
    simp only [tablePath, List.length_append, List.length_cons, List.length_nil] at hlen
    omega

theorem Outside.afterMap (h : Outside st x) (ht : TreeTables st) (hs : FreshSupply st)
    (hafter : ∀ p, p.length ≤ 3 → (mapPage st virt phys flags).1.tableAt p ≠ some (x / pageSize)) :
    (mapPage st virt phys flags).1.mem x = st.mem x := by
  have hresult := mapPage_result ht hs virt phys flags
  generalize mapPage st virt phys flags = r at hresult hafter
  cases hresult with
  | unaligned _ => rfl
  | present _ _ => rfl
  | mapped st' frames t _ _ hlaid htable =>
    rw [← h.tablesLaid hlaid]
    apply byte_of_frameWord
    intro j
    apply frameWord_store_of_ne (i := indexAt virt 12)
    left
    rintro rfl
    apply hafter (tablePath virt) le_rfl
    exact (setLeaf_tableAt hlaid.grows.shaped htable le_rfl).trans htable
  | noMemory st' frames rest _ _ hlaid _ _ _ => exact h.tablesLaid hlaid

theorem Outside.afterUnmap (h : Outside st x) : (unmapPage st virt).1.mem x = st.mem x := by
  unfold unmapPage
  split
  next => rfl
  next =>
    rw [findEntry_eq]
    cases htable : st.tableAt (tablePath virt) with
    | none => rfl
    | some t =>
      simp only [Option.map_some, Option.elim_some]
      split
      next => rfl
      next => exact h.setEntry le_rfl htable (indexAt virt 12)

theorem Parted.outside (h : Parted pool σ st laid) (hpool : Pool pool) (hx : pageOf x ∈ σ.held) :
    Outside st x := by
  obtain ⟨hfree, htable⟩ := h.held_apart hpool hx
  exact ⟨hfree, htable⟩

/-- What a step stores in a byte of a held page. -/
def VmSystem.stored (σ : VmSystem) (x : ℕ) : VmAction → Option UInt8
  | .poke a v => if a = x then some (UInt8.ofNat v) else none
  | .write virt v => if σ.machine.access virt = some x then some (UInt8.ofNat v) else none
  | _ => none

theorem poke_mem (m : MemoryManager) (a v : ℕ) :
    (m.poke a v).mem x = (if a = x then some (UInt8.ofNat v) else none).getD (m.mem x) := by
  have hmem : (m.poke a v).mem = Function.update m.mem a (UInt8.ofNat v) := rfl
  rw [hmem]
  by_cases hax : a = x
  · rw [if_pos hax, hax, Function.update_self]
    rfl
  · rw [if_neg hax, Function.update_of_ne (Ne.symm hax)]
    rfl

theorem MemoryManager.allocPage_mem (m : MemoryManager) : m.allocPage.1.mem = m.mem := by
  unfold MemoryManager.allocPage Mm.allocPage MemoryManager.mem
  split
  next => rfl
  next => exact PageAllocator.pop_mem m.pages

theorem MemoryManager.freePage_mem {m m' : MemoryManager} {page : ℕ} (h : m.freePage page = .ok m') :
    m'.mem = store m.mem page 8 m.pages.freePages := by
  obtain ⟨pages, hfree, rfl⟩ := map_ok h
  unfold Mm.freePage at hfree
  split at hfree
  next => cases hfree
  next =>
    obtain rfl := Except.ok.inj hfree
    rfl

/-- The bytes of a page that stays held change by stores to them only. -/
theorem Parted.held_bytes {act : VmAction} (h : Parted pool σ st laid) (hpool : Pool pool)
    (ha : σ.Admissible pool act) (hs : σ.step act = .ok σ') (hx : pageOf x ∈ σ.held)
    (hx' : pageOf x ∈ σ'.held) :
    σ'.machine.mem x = (σ.stored x act).getD (σ.machine.mem x) := by
  have hout := h.outside hpool hx
  have hmem : σ.machine.mem = st.mem := h.follows.mem.symm
  cases act with
  | alloc =>
    obtain rfl := Except.ok.inj hs
    exact congrFun (MemoryManager.allocPage_mem σ.machine) x
  | free page =>
    have hnodup := ((h.nodup hpool).sublist (List.sublist_append_left _ _)).sublist
      (List.sublist_append_left _ _)
    obtain ⟨m', hfree, rfl⟩ := map_ok (mapError_ok hs)
    have hne : pageOf x ≠ page := by
      rintro rfl
      exact hnodup.not_mem_erase hx'
    rw [MemoryManager.freePage_mem hfree]
    apply store_of_outside
    have hdvd := (h.bounds hpool (List.mem_append_left _ ha.1)).2.1
    simp only [pageOf, pageSize] at *
    omega
  | map virt phys flags seen =>
    obtain ⟨σ₁, laid', hs₁, hst', -⟩ := h.map hpool ha
    obtain rfl := Except.ok.inj (hs₁.symm.trans hs)
    have hout' := hst'.outside hpool hx'
    rw [← hst'.follows.mem, hmem]
    exact hout.afterMap h.tree (h.fresh hpool) hout'.table
  | unmap virt seen =>
    obtain ⟨σ₁, hs₁, hst', -⟩ := h.unmap hpool ha.1 seen
    obtain rfl := Except.ok.inj (hs₁.symm.trans hs)
    rw [← hst'.follows.mem, hmem]
    exact hout.afterUnmap
  | pageTablesInit kernelPml4 =>
    obtain ⟨σ₁, hs₁, hst', -⟩ := h.pageTablesInit hpool ha
    obtain rfl := Except.ok.inj (hs₁.symm.trans hs)
    obtain ⟨hdvd, -, hnot, hroot, -⟩ := ha
    obtain ⟨k, rfl⟩ := hdvd
    rw [Nat.mul_comm] at hst' hnot hroot
    rw [Nat.mul_div_cancel _ (by decide)] at hroot
    have hne : st.frame ≠ k := by
      rintro rfl
      exact hroot (h.isTable.mpr ⟨[], by simp, rfl⟩)
    rw [← hst'.follows.mem, hmem]
    apply byte_of_frameWord
    intro j
    apply (pageTablesInit_copied hne).other
    rintro rfl
    exact hnot (h.parts.subset (List.mem_append_left _ (List.mem_append_left _ hx)))
  | lookUp seen =>
    obtain rfl := Except.ok.inj hs
    rfl
  | forget page =>
    obtain rfl := Except.ok.inj hs
    rfl
  | poke a v =>
    obtain rfl := Except.ok.inj hs
    exact poke_mem σ.machine a v
  | write virt v =>
    simp only [VmSystem.step] at hs
    cases haccess : σ.machine.access virt with
    | none =>
      rw [haccess] at hs
      cases hs
    | some a =>
      rw [haccess] at hs
      obtain rfl := Except.ok.inj hs
      rw [VmSystem.stored, haccess]
      simp only [Option.some.injEq]
      exact poke_mem σ.machine a v

end

/-- A page that `map_page` has mapped is memory of its own: in every run, as long as it stays
mapped, a read of it does not fault and gives the byte last stored there, through this mapping,
another one, or its physical address. Allocating, freeing, mapping and unmapping other pages,
the new root, and whatever the processor caches do not change it. -/
theorem mapped_memory_private {env : BootEnv} {mem₀ : Mem} {σ σ' : VmSystem} {act : VmAction}
    (hok : BootTablesOk env mem₀) (h : VmSystem.Reachable env mem₀ σ)
    (ha : σ.Admissible (usablePages env mem₀) act) (hs : σ.step act = .ok σ') {e : Mapping}
    (he : e ∈ σ.mapped) (he' : e ∈ σ'.mapped) {o : ℕ} (ho : o < pageSize) :
    σ.machine.read (e.virt + o) = some (σ.machine.mem (e.phys + o)) ∧
    σ'.machine.read (e.virt + o) =
      some ((σ.stored (e.phys + o) act).getD (σ.machine.mem (e.phys + o))) := by
  have hpool := hok.pool
  obtain ⟨st, laid, hst, -⟩ := h.parted hok
  obtain ⟨σ₁, st', laid', hs₁, hst', -⟩ := hst.step hpool ha
  obtain rfl := Except.ok.inj (hs₁.symm.trans hs)
  obtain ⟨-, -, -, hheld, -⟩ := hst.mapped e he
  obtain ⟨-, -, -, hheld', -⟩ := hst'.mapped e he'
  have hpage : pageOf (e.phys + o) = e.phys := by
    have hdvd := (hst.bounds hpool (List.mem_append_left _ hheld)).2.1
    simp only [pageOf, pageSize] at *
    omega
  unfold MemoryManager.read
  rw [hst.access_mapped hpool he ho, hst'.access_mapped hpool he' ho]
  refine ⟨rfl, ?_⟩
  rw [Option.map_some, hst.held_bytes hpool ha hs (by rwa [hpage]) (by rwa [hpage])]

/-- A byte is stored through the mapping; the next one stays. -/
theorem mapped_memory_private_write : ∃ σ σ', VmSystem.Reachable exampleEnv roomyBoot σ ∧
    σ.step (.write 0x400123 0x41) = .ok σ' ∧ σ'.machine.read 0x400123 = some 0x41 ∧
    σ'.machine.read 0x400124 = some (σ.machine.mem 0x100124) := by
  obtain ⟨σ, hσ, -, hmapped, -⟩ := roomyBoot_mapped
  obtain ⟨st, laid, hst, -⟩ := hσ.parted roomyBoot_ok
  have he : ⟨0x400000, 0x100000, pageWritable⟩ ∈ σ.mapped := by simp [hmapped]
  have haccess : σ.machine.access 0x400123 = some 0x100123 :=
    hst.access_mapped (o := 0x123) roomyBoot_ok.pool he (by decide)
  have ha : σ.Admissible (usablePages exampleEnv roomyBoot) (.write 0x400123 0x41) :=
    ⟨_, he, by decide, by decide⟩
  have hs : σ.step (.write 0x400123 0x41) =
      .ok { σ with machine := σ.machine.poke 0x100123 0x41 } := by
    simp only [VmSystem.step]
    rw [haccess]
  have hread {o : ℕ} (ho : o < pageSize) :=
    (mapped_memory_private roomyBoot_ok hσ ha hs he he ho).2
  have hhere := hread (o := 0x123) (by decide)
  have hnext := hread (o := 0x124) (by decide)
  simp only [VmSystem.stored, haccess] at hhere hnext
  exact ⟨σ, _, hσ, hs, hhere, hnext⟩

end Tianole.Mm
