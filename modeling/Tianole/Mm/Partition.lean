import Tianole.Mm.VmSystem

/-! The memory manager from boot on: no usable page is lost, and none has two uses. -/
namespace Tianole.Mm
open Memory Word Runs WordList

/-! ### Physical addresses -/

section
variable {pool laid : List ℕ} {σ : VmSystem} {st st' : PageTables} {a virt phys flags : ℕ}
  {seen : List ℕ}

/-- Page frame `f` is mapped to itself. -/
def PageTables.MapsSelf (st : PageTables) (f : ℕ) : Prop :=
  Canonical (f * pageSize) ∧ ∃ e, st.leafOf (f * pageSize) = some e ∧
    e &&& x86PageMask = f * pageSize

/-- The pages that the allocator and the walk of the tables reach at their physical addresses. -/
structure SelfMapped (pool : List ℕ) (st : PageTables) : Prop where
  pages : ∀ page ∈ pool, st.MapsSelf (page / pageSize)
  tables : ∀ p t, p.length ≤ 3 → st.tableAt p = some t → st.MapsSelf t

theorem PageTables.MapsSelf.congr {f : ℕ} (h : st.MapsSelf f)
    (hleaf : ∀ e, st.leafOf (f * pageSize) = some e → st'.leafOf (f * pageSize) = some e) :
    st'.MapsSelf f := by
  obtain ⟨hcan, e, he, hself⟩ := h
  exact ⟨hcan, e, hleaf e he, hself⟩

/-- The processor sends an address of such a page to itself. -/
theorem PageTables.MapsSelf.access (h : st.MapsSelf (a / pageSize)) (hst : Parted pool σ st laid) :
    σ.machine.access a = some a := by
  obtain ⟨hcan, e, he, hself⟩ := h
  have hdiv := Nat.div_add_mod' a pageSize
  have hmod := Nat.mod_lt a (show 0 < pageSize by decide)
  have hcan' : Canonical a := by
    simp only [Canonical, pageSize] at *
    omega
  have hpage : a / pageSize * pageSize / pageSize = a / pageSize :=
    Nat.mul_div_cancel _ (by decide)
  have hor : a / pageSize * pageSize ||| a % pageSize = a := by
    rw [Nat.mul_comm] at hdiv ⊢
    exact (Nat.two_pow_add_eq_or_of_lt (i := 12) hmod (a / pageSize)).symm.trans hdiv
  rw [hst.follows.access_eq hst.tree hst.coherent hcan', virtToPhys_eq, ← leafOf_congr hpage, he,
    Option.map_some, hself, land_pageOffset, hor]
  rfl

/-- A page that accesses find at its physical address is mapped to itself. -/
theorem Parted.mapsSelf (h : Parted pool σ st laid) {k : ℕ}
    (haccess : σ.machine.access (k * pageSize) = some (k * pageSize)) : st.MapsSelf k := by
  have hcan : Canonical (k * pageSize) := by
    by_contra hnot
    rw [MemoryManager.access, h.coherent.lookup_eq, Nat.mul_div_cancel _ (by decide),
      MemoryManager.walk, if_neg hnot] at haccess
    cases haccess
  rw [h.follows.access_eq h.tree h.coherent hcan, virtToPhys_eq] at haccess
  cases hleaf : st.leafOf (k * pageSize) with
  | none =>
    rw [hleaf] at haccess
    cases haccess
  | some e =>
    rw [hleaf, Option.map_some, land_pageOffset, Nat.mul_mod_left, Nat.or_zero] at haccess
    exact ⟨hcan, e, hleaf, Option.some.inj haccess⟩

/-- `map_page` replaces no leaf entry. -/
theorem mapPage_leafOf (h : Parted pool σ st laid) (hpool : Pool pool)
    (ha : σ.Admissible pool (.map virt phys flags seen)) {u e : ℕ} (hu : Canonical u)
    (hleaf : st.leafOf u = some e) : (mapPage st virt phys flags).1.leafOf u = some e := by
  obtain ⟨hcan, hflags, hheld⟩ := ha
  by_cases haligned : Unaligned virt phys
  · have hcall : mapPage st virt phys flags = (st, -einval) := if_pos haligned
    rw [hcall]
    exact hleaf
  obtain ⟨hv, hp⟩ := aligned_iff.mp haligned
  obtain ⟨-, -, hlt⟩ := h.bounds hpool (List.mem_append_left _ (hheld haligned))
  obtain ⟨-, houtcome, hother, -⟩ := mapPage_spec h.tree (h.fresh hpool) hv hp hlt hflags
  by_cases hpage : u / pageSize = virt / pageSize
  · rw [leafOf_congr hpage] at hleaf ⊢
    generalize mapPage st virt phys flags = r at houtcome
    obtain ⟨st', ret⟩ := r
    cases houtcome with
    | mapped hnone _ => exact absurd (hnone.symm.trans hleaf) nofun
    | alreadyMapped _ hsame => exact hsame.trans hleaf
    | noMemory hnone _ => exact absurd (hnone.symm.trans hleaf) nofun
  · rw [hother u hu hcan hpage]
    exact hleaf

theorem unmapPage_leafOf (ht : TreeTables st) (hcan : Canonical virt) {u e : ℕ} (hu : Canonical u)
    (hne : pageSize ∣ virt → u / pageSize ≠ virt / pageSize) (hleaf : st.leafOf u = some e) :
    (unmapPage st virt).1.leafOf u = some e := by
  by_cases hv : pageSize ∣ virt
  · obtain ⟨-, -, -, hother, -⟩ := unmapPage_spec ht hv
    rw [hother u hu hcan (hne hv)]
    exact hleaf
  · have hoffset : virt &&& (pageSize - 1) ≠ 0 := by
      rw [land_pageOffset]
      exact fun h0 => hv (Nat.dvd_of_mod_eq_zero h0)
    have hcall : unmapPage st virt = (st, -einval) := if_pos hoffset
    rw [hcall]
    exact hleaf

/-- The tables that `map_page` adds are free pages. -/
theorem mapPage_tables_of (h : Parted pool σ st laid) (hpool : Pool pool)
    (ha : σ.Admissible pool (.map virt phys flags seen)) {p : List (Fin 512)} {t : ℕ}
    (hp : p.length ≤ 3) (htable : (mapPage st virt phys flags).1.tableAt p = some t) :
    st.tableAt p = some t ∨ t * pageSize ∈ pool := by
  obtain ⟨-, hflags, hheld⟩ := ha
  by_cases haligned : Unaligned virt phys
  · have hcall : mapPage st virt phys flags = (st, -einval) := if_pos haligned
    rw [hcall] at htable
    exact .inl htable
  obtain ⟨hv, hphys⟩ := aligned_iff.mp haligned
  obtain ⟨-, -, hlt⟩ := h.bounds hpool (List.mem_append_left _ (hheld haligned))
  obtain ⟨-, -, -, ⟨used, hused, -, hnew⟩, -⟩ :=
    mapPage_spec h.tree (h.fresh hpool) hv hphys hlt hflags
  refine (hnew p t hp htable).imp_right fun hin => ?_
  apply h.parts.subset
  apply List.mem_append_left
  apply List.mem_append_right
  rw [hused]
  exact List.mem_append_left _ hin

/-- No admissible step takes away the mapping of a usable page or of a table to itself. -/
theorem SelfMapped.step {act : VmAction} (h : SelfMapped pool st) (hst : Parted pool σ st laid)
    (hpool : Pool pool) (ha : σ.Admissible pool act) (heffect : LeafEffect st st' act) :
    SelfMapped pool st' := by
  cases heffect with
  | map heq =>
    subst heq
    have hkeep {f : ℕ} (hf : st.MapsSelf f) := hf.congr fun e he =>
      mapPage_leafOf hst hpool ha hf.1 he
    refine ⟨fun page hp => hkeep (h.pages page hp), fun p t hp htable => hkeep ?_⟩
    rcases mapPage_tables_of hst hpool ha hp htable with hold | hnew
    · exact h.tables p t hp hold
    · have hself := h.pages _ hnew
      rwa [Nat.mul_div_cancel _ (by decide)] at hself
  | unmap heq =>
    subst heq
    obtain ⟨hcan, hother⟩ := ha
    have hkeep {f : ℕ} (hf : st.MapsSelf f) (hne : pageSize ∣ _ → f ≠ _ / pageSize) :=
      hf.congr fun e he => unmapPage_leafOf hst.tree hcan hf.1
        (fun hv => by rw [Nat.mul_div_cancel _ (by decide)]; exact hne hv) he
    refine ⟨fun page hp => hkeep (h.pages page hp) fun hv he => (hother hv).1 ?_,
      fun p t hp htable => ?_⟩
    · rw [← Nat.div_mul_cancel hv, ← he, Nat.div_mul_cancel (hpool.pages page hp).2.1]
      exact hp
    · rw [unmapPage_tables hst.tree hp] at htable
      apply hkeep (h.tables p t hp htable)
      rintro hv rfl
      exact (hother hv).2 (hst.isTable.mpr ⟨p, hp, htable⟩)
  | other hleaf hkept =>
    have hkeep {f : ℕ} (hf : st.MapsSelf f) : st'.MapsSelf f :=
      hf.congr fun e he => (hleaf _).trans he
    refine ⟨fun page hp => hkeep (h.pages page hp), fun p t hp htable => hkeep ?_⟩
    rcases hkept p t hp htable with hold | hroot
    · exact h.tables p t hp hold
    · cases act with
      | pageTablesInit kernelPml4 =>
        obtain rfl : kernelPml4 = t * pageSize := Option.some.inj hroot
        exact hst.mapsSelf ha.2.2.2.2
      | _ => cases hroot

end

/-! ### From boot on -/

/-- The tables of the firmware. -/
def bootTables (env : BootEnv) (mem : Mem) : PageTables := ⟨mem, env.cr3, [], []⟩

/-- What the boot loader hands over: disjoint aligned conventional ranges in physical memory, of
which page 0 is not free, and tables that form a tree without large pages and map the usable pages
and themselves to their physical addresses. -/
structure BootTablesOk (env : BootEnv) (mem : Mem) : Prop where
  map : BootMapOk env mem
  low : ∀ d ∈ conventionalRanges env mem, d.stop ≤ 2 ^ 52
  zero : 0 ∉ usablePages env mem
  tree : TreeTables (bootTables env mem)
  self : SelfMapped (usablePages env mem) (bootTables env mem)

namespace VmSystem

/-- After `init_free_pages`, on the tables of the firmware. -/
structure Booted (env : BootEnv) (mem₀ : Mem) (σ : VmSystem) : Prop where
  pages : mmInitPages env (bootAllocator mem₀) = .ok σ.machine.pages
  cr3 : σ.machine.cr3 = env.cr3
  held : σ.held = []
  mapped : σ.mapped = []
  coherent : Cache.Coherent σ.machine.tlb σ.machine.walk

/-- The states after boot and any admissible steps. -/
def Reachable (env : BootEnv) (mem₀ : Mem) : VmSystem → Prop :=
  Reach step (Booted env mem₀) (Admissible (usablePages env mem₀))

end VmSystem

section
variable {env : BootEnv} {mem₀ : Mem} {σ : VmSystem} {page t : ℕ} {p : List (Fin 512)}

theorem BootTablesOk.pool (hok : BootTablesOk env mem₀) : Pool (usablePages env mem₀) := by
  constructor
  · exact PageSystem.usable_nodup hok.map
  · intro page hp
    have hne : page ≠ 0 := by
      rintro rfl
      exact hok.zero hp
    refine ⟨hne, (PageSystem.usable_bounds hok.map hp).1, ?_⟩
    have hnone : page ∉ [] := List.not_mem_nil
    obtain ⟨d, hd, -, hstop⟩ := (allocatable_of_usable hok.map hp hnone).conventional
    have hlow := hok.low d hd
    simp only [pageSize] at hstop
    omega

/-- The tables that a path leads to are among those that `collect_active_page_tables` knows. -/
theorem tablePage_of_tableAt (ht : TreeTables (bootTables env mem₀)) (hp : p.length ≤ 3)
    (htable : (bootTables env mem₀).tableAt p = some t) :
    TablePage mem₀ (activePml4 env.cr3) (4 - p.length) (t * pageSize) := by
  induction p using List.reverseRecOn generalizing t with
  | nil =>
    obtain rfl : (bootTables env mem₀).frame = t := Option.some.inj htable
    rw [PageTables.root_frame]
    exact .root
  | append_singleton p i ih =>
    rw [List.length_append, List.length_singleton] at hp ⊢
    rw [PageTables.tableAt, Radix.table_concat, Option.bind_eq_some_iff] at htable
    obtain ⟨t', ht', hnext⟩ := htable
    have habove := ih (by omega) ht'
    rcases entryFrame_cases (frameWord mem₀ t' i) with ⟨-, hnone⟩ | ⟨hpres, f, hsome, htab⟩
    · rw [show entryFrame (frameWord mem₀ t' i) = some t from hnext] at hnone
      cases hnone
    · obtain rfl : f = t := Option.some.inj (hsome.symm.trans hnext)
      have hlarge := ht.noLarge p t' (by omega) ht' i hpres
      have hlevel : 4 - p.length = (2 - p.length) + 2 := by omega
      have hlevel' : 4 - (p.length + 1) = (2 - p.length) + 1 := by omega
      rw [hlevel] at habove
      rw [hlevel', ← htab]
      exact .next habove i.isLt hpres (.inr hlarge)

theorem usable_not_table (hok : BootTablesOk env mem₀) (hu : page ∈ usablePages env mem₀)
    (hp : p.length ≤ 3) : (bootTables env mem₀).tableAt p ≠ some (page / pageSize) := by
  intro htable
  have hnone : page ∉ [] := List.not_mem_nil
  have hapart := (allocatable_of_usable hok.map hu hnone).noTable _ _
    (tablePage_of_tableAt hok.tree hp htable)
  rw [Nat.div_mul_cancel (PageSystem.usable_bounds hok.map hu).1] at hapart
  simp only [pageSize] at hapart
  omega

theorem foldl_pushPage (ps l : List ℕ) (hzero : 0 ∉ ps) : ps.foldl pushPage l = ps.reverse ++ l := by
  induction ps generalizing l with
  | nil => rfl
  | cons p ps ih =>
    rw [List.mem_cons, not_or] at hzero
    rw [List.foldl_cons, ih _ hzero.2, pushPage, if_neg (Ne.symm hzero.1)]
    simp

theorem VmSystem.Booted.parted (h : VmSystem.Booted env mem₀ σ) (hok : BootTablesOk env mem₀) :
    ∃ st, Parted (usablePages env mem₀) σ st [] ∧ SameTables (bootTables env mem₀) st := by
  have hinv := PageSystem.mmInitPages_scanInv hok.map h.pages
  have hpool := hok.pool
  have hlist := hinv.list
  rw [foldl_pushPage _ _ hok.zero, List.append_nil] at hlist
  have hlen : (usablePages env mem₀).length < 2 ^ 64 := by
    have hsub : usablePages env mem₀ ⊆ List.range (2 ^ 52) := fun page hp =>
      List.mem_range.mpr (hpool.pages page hp).2.2
    have hle := (List.subperm_of_subset hpool.nodup hsub).length_le
    rw [List.length_range] at hle
    omega
  have hcount := hinv.count
  rw [wrap64_of_lt hlen, ← List.length_reverse] at hcount
  have hperm := (usablePages env mem₀).reverse_perm
  generalize (usablePages env mem₀).reverse = free at hlist hcount hperm
  have hsame : SameTables (bootTables env mem₀) ⟨σ.machine.mem, env.cr3, free, []⟩ := by
    constructor
    · rfl
    · intro p t hp htable j
      apply load_congr
      intro x hx hx'
      apply hinv.agree
      intro hu
      apply usable_not_table hok hu hp
      have hj := j.isLt
      have ht : t = pageOf x / pageSize := by
        simp only [pageOf, pageSize] at *
        omega
      rw [htable, ht]
  refine ⟨⟨σ.machine.mem, env.cr3, free, []⟩, ⟨⟨rfl, h.cr3.symm, hlist, hinv.head, hcount⟩,
    hsame.tree hok.tree, ?_, ?_, ?_, ?_, h.coherent⟩, hsame⟩
  · rw [h.held, List.nil_append, List.append_nil]
    exact hperm
  · intro page hp p hlen
    rw [h.held, List.nil_append] at hp
    rw [hsame.tableAt_eq (Nat.le_succ_of_le hlen)]
    exact usable_not_table hok (hperm.subset hp) hlen
  · intro page hp
    cases hp
  · rw [h.mapped]
    intro e he
    cases he

theorem SelfMapped.of_same {pool : List ℕ} {st st' : PageTables} (h : SelfMapped pool st)
    (hsame : SameTables st st') : SelfMapped pool st' := by
  have hkeep {f : ℕ} (hf : st.MapsSelf f) : st'.MapsSelf f :=
    hf.congr fun e he => (hsame.leafOf_eq _).trans he
  refine ⟨fun page hp => hkeep (h.pages page hp), fun p t hp htable => hkeep ?_⟩
  rw [hsame.tableAt_eq (Nat.le_succ_of_le hp)] at htable
  exact h.tables p t hp htable

theorem VmSystem.Reachable.parted (h : VmSystem.Reachable env mem₀ σ) (hok : BootTablesOk env mem₀) :
    ∃ st laid, Parted (usablePages env mem₀) σ st laid ∧ SelfMapped (usablePages env mem₀) st := by
  apply Reach.invariant (I := fun σ => ∃ st laid, Parted (usablePages env mem₀) σ st laid ∧
    SelfMapped (usablePages env mem₀) st) h
  · intro σ hboot
    obtain ⟨st, hst, hsame⟩ := hboot.parted hok
    exact ⟨st, [], hst, hok.self.of_same hsame⟩
  · rintro σ act σ' ⟨st, laid, hst, hself⟩ ha hs
    obtain ⟨σ₁, st', laid', hs₁, hst', heffect⟩ := hst.step hok.pool ha
    obtain rfl := Except.ok.inj (hs₁.symm.trans hs)
    exact ⟨st', laid', hst', hself.step hst hok.pool ha heffect⟩

end

/-- Entry `index` of the tables of a firmware, in page frames `0x40` to `0x43`: they map the kernel
in page frame `0x30`, themselves, and eight pages from `0x100000` on to themselves. -/
def roomyEntry (frame index : ℕ) : ℕ :=
  if frame = 0x43 then
    if index = 0x30 ∨ 0x40 ≤ index ∧ index < 0x44 ∨ 0x100 ≤ index ∧ index < 0x108 then
      index * pageSize + 3
    else 0
  else if index = 0 then (frame + 1) * pageSize + 3 else 0

/-- A boot memory map with these eight pages, and the tables. -/
def roomyBoot : Mem := fun a =>
  if 0x40 ≤ a / pageSize ∧ a / pageSize < 0x44 then
    UInt8.ofNat (roomyEntry (a / pageSize) (a % pageSize / 8) / 256 ^ (a % 8))
  else (List.lookup a [(0x1000a, 2), (0x10010, 40), (0x10020, 40), (0x20000, 7), (0x2000a, 0x10),
    (0x20018, 8)]).getD 0

theorem roomyBoot_word {f : ℕ} (hf : 0x40 ≤ f ∧ f < 0x44) (j : Fin 512) :
    frameWord roomyBoot f j = roomyEntry f j := by
  have hj := j.isLt
  have hlt : roomyEntry f j < 256 ^ 8 := by
    unfold roomyEntry
    simp only [pageSize]
    split_ifs <;> omega
  have hbytes : load roomyBoot (f * pageSize + 8 * j) 8 = roomyEntry f j % 256 ^ 8 := by
    refine load_of_bytes fun k hk => ?_
    have hdiv : (f * pageSize + 8 * j + k) / pageSize = f := by
      simp only [pageSize]
      omega
    have hmod : (f * pageSize + 8 * j + k) % pageSize / 8 = j := by
      simp only [pageSize]
      omega
    have hbyte : (f * pageSize + 8 * j + k) % 8 = k := by
      simp only [pageSize]
      omega
    rw [roomyBoot, hdiv, hmod, hbyte, if_pos hf]
  exact hbytes.trans (Nat.mod_eq_of_lt hlt)

/-- There is one table at each level. -/
theorem roomyBoot_table {k : ℕ} {q : List (Fin 512)} {t : ℕ} (hk : k + q.length ≤ 3)
    (h : Radix.table entryFrame (frameWord roomyBoot) (0x40 + k) q = some t) :
    q = List.replicate q.length 0 ∧ t = 0x40 + k + q.length := by
  induction q generalizing k with
  | nil => exact ⟨rfl, (Option.some.inj h).symm⟩
  | cons i q ih =>
    rw [List.length_cons] at hk
    have hframe : (0x40 + k) ≠ 0x43 := by omega
    rw [Radix.table, roomyBoot_word ⟨by omega, by omega⟩, roomyEntry, if_neg hframe] at h
    by_cases hi : i.val = 0
    · obtain rfl : i = 0 := Fin.ext hi
      have hentry : entryFrame ((0x40 + k + 1) * pageSize + 3) = some (0x40 + (k + 1)) := by
        rcases (by omega : k = 0 ∨ k = 1 ∨ k = 2) with rfl | rfl | rfl <;> decide
      rw [if_pos hi, hentry] at h
      obtain ⟨hq, rfl⟩ := ih (by omega) h
      refine ⟨?_, ?_⟩
      · rw [List.length_cons, List.replicate_succ, ← hq]
      · rw [List.length_cons]
        omega
    · rw [if_neg hi] at h
      cases h

theorem roomyBoot_path {p : List (Fin 512)} {t : ℕ} (hp : p.length ≤ 3)
    (h : (bootTables exampleEnv roomyBoot).tableAt p = some t) :
    p = List.replicate p.length 0 ∧ t = 0x40 + p.length := by
  have hframe : (bootTables exampleEnv roomyBoot).frame = 0x40 + 0 := by decide
  rw [PageTables.tableAt, hframe] at h
  exact roomyBoot_table (by omega) h

theorem roomyBoot_tree : TreeTables (bootTables exampleEnv roomyBoot) := by
  constructor
  · intro p q t hp hq hpt hqt
    obtain ⟨hp', ht⟩ := roomyBoot_path hp hpt
    obtain ⟨hq', ht'⟩ := roomyBoot_path hq hqt
    rw [hp', hq', show p.length = q.length by omega]
  · intro p t hp hpt i hpres
    obtain ⟨-, rfl⟩ := roomyBoot_path (by omega) hpt
    have hword : frameWord (bootTables exampleEnv roomyBoot).mem (0x40 + p.length) i =
        roomyEntry (0x40 + p.length) i := roomyBoot_word ⟨by omega, by omega⟩ i
    rw [hword, roomyEntry, if_neg (by omega)] at hpres ⊢
    by_cases hi : i.val = 0
    · rw [if_pos hi]
      rcases (by omega : p.length = 0 ∨ p.length = 1 ∨ p.length = 2) with hl | hl | hl <;>
        rw [hl] <;> decide
    · rw [if_neg hi] at hpres
      cases hpres

/-- The pages that the tables map, each to itself. -/
theorem roomyBoot_mapsSelf {f : ℕ}
    (hf : f = 0x30 ∨ 0x40 ≤ f ∧ f < 0x44 ∨ 0x100 ≤ f ∧ f < 0x108) :
    (bootTables exampleEnv roomyBoot).MapsSelf f := by
  have hall : ∀ f < 512, (f = 0x30 ∨ 0x40 ≤ f ∧ f < 0x44 ∨ 0x100 ≤ f ∧ f < 0x108) →
      (bootTables exampleEnv roomyBoot).leafOf (f * pageSize) = some (f * pageSize + 3) ∧
        (f * pageSize + 3) &&& x86PageMask = f * pageSize := by
    decide +kernel
  have hlt : f < 512 := by omega
  obtain ⟨hleaf, hself⟩ := hall f hlt hf
  exact ⟨.inl (by simp only [pageSize]; omega), _, hleaf, hself⟩

theorem roomyBoot_ok : BootTablesOk exampleEnv roomyBoot := by
  have hranges : conventionalRanges exampleEnv roomyBoot = [⟨7, 0x100000, 8⟩] := by decide +kernel
  have hfields : exampleEnv.memoryMap roomyBoot = 0x20000 ∧
      exampleEnv.memoryMapSize roomyBoot = 40 ∧ exampleEnv.memoryDescriptorSize roomyBoot = 40 := by
    decide +kernel
  have husable : ∀ page ∈ usablePages exampleEnv roomyBoot, page ≠ 0 ∧
      0x100 ≤ page / pageSize ∧ page / pageSize < 0x108 := by decide +kernel
  obtain ⟨hmap, hsize, hstride⟩ := hfields
  have hpage : pageSize = 4096 := rfl
  refine ⟨⟨by decide, by decide, ?_, ?_, ?_, ?_, ?_⟩, ?_, fun h0 => (husable 0 h0).1 rfl,
    roomyBoot_tree, ⟨fun page hp => ?_, fun p t hp htable => ?_⟩⟩
  · rw [hmap, hsize]
    omega
  · rw [hsize, hstride]
    omega
  · rw [hranges]
    decide
  · rw [hranges]
    decide
  · rw [hranges]
    exact List.pairwise_singleton _ _
  · rw [hranges]
    decide
  · exact roomyBoot_mapsSelf (.inr (.inr (husable page hp).2))
  · obtain ⟨-, rfl⟩ := roomyBoot_path hp htable
    exact roomyBoot_mapsSelf (.inr (.inl ⟨by omega, by omega⟩))

theorem roomyBoot_booted : ∃ σ, VmSystem.Booted exampleEnv roomyBoot σ ∧
    σ.machine.pages.freePages = 0x100000 ∧ σ.machine.pages.freePageCount = 8 := by
  have hrun : (mmInitPages exampleEnv (bootAllocator roomyBoot)).map
      (fun st => (st.freePages, st.freePageCount)) = .ok (0x100000, 8) := by decide +kernel
  obtain ⟨st, hs, hfree⟩ := map_ok hrun
  obtain ⟨hhead, hcount⟩ := Prod.mk.inj hfree
  exact ⟨⟨⟨st, exampleEnv.cr3, fun _ => none⟩, [], []⟩,
    ⟨hs, rfl, rfl, rfl, Cache.coherent_empty⟩, hhead, hcount⟩

/-- The first page is allocated and mapped at an address whose last table is missing. -/
theorem roomyBoot_mapped : ∃ σ, VmSystem.Reachable exampleEnv roomyBoot σ ∧
    σ.held = [0x100000] ∧ σ.mapped = [⟨0x400000, 0x100000, pageWritable⟩] ∧
    σ.machine.pages.freePageCount = 6 := by
  have hpool := roomyBoot_ok.pool
  obtain ⟨σ, hboot, hhead, hcount⟩ := roomyBoot_booted
  obtain ⟨st, hst, hsame⟩ := hboot.parted roomyBoot_ok
  have hpage : (allocPage σ.machine.pages).2 = 0x100000 := by
    simp [allocPage, hhead]
  obtain ⟨σ₁, hs₁, hst₁, -⟩ := hst.alloc hpool
  have hsame₁ : SameTables (bootTables exampleEnv roomyBoot) st.takePage.1 :=
    ⟨hsame.cr3, hsame.words⟩
  have hsupply : st.takePage.1.supply.length = 7 := by
    have hlen := hst.follows.count
    rw [hcount] at hlen
    simp [PageTables.takePage, ← hlen]
  have hreach : VmSystem.Reachable exampleEnv roomyBoot σ₁ :=
    .next (a := .alloc) (.start hboot) trivial hs₁
  have hheld : σ₁.held = [0x100000] ∧ σ₁.mapped = [] := by
    obtain rfl := Except.ok.inj hs₁
    refine ⟨?_, hboot.mapped⟩
    simp only
    rw [hpage, hboot.held]
    rfl
  generalize st.takePage.1 = st₁ at hst₁ hsame₁ hsupply
  have ha : σ₁.Admissible (usablePages exampleEnv roomyBoot)
      (.map 0x400000 0x100000 pageWritable []) :=
    ⟨.inl (by decide), by simp [MapFlags], fun _ => by simp [hheld.1]⟩
  have hleaf : st₁.leafOf 0x400000 = none := by
    rw [hsame₁.leafOf_eq]
    decide +kernel
  have hlacks : st₁.lacks (tablePath 0x400000) = 1 := by
    rw [hsame₁.lacks_eq]
    decide +kernel
  have hzero : 0 ∉ st₁.supply := fun hmem => hst₁.follows.list.ne_zero hmem rfl
  obtain ⟨hneeds, htaken⟩ : ((mapPage st₁ 0x400000 0x100000 pageWritable).2 = 0 ↔ _) ∧ _ :=
    mapPage_needs hst₁.tree (hst₁.fresh hpool) (by decide) hleaf
  rw [hlacks, pagesAhead_of_ne hzero, hsupply] at hneeds
  have hret := hneeds.mpr (by decide)
  obtain ⟨σ₂, laid, hs₂, hst₂, hsame₂⟩ := hst₁.map hpool ha
  refine ⟨σ₂, .next hreach ha hs₂, ?_, ?_, ?_⟩
  · exact (congrArg VmSystem.held (Except.ok.inj hs₂)).symm.trans hheld.1
  · have hmapped : σ₂.mapped = if (σ₁.machine.mapPage 0x400000 0x100000 pageWritable []).2 = 0 then
        ⟨0x400000, 0x100000, pageWritable⟩ :: σ₁.mapped else σ₁.mapped :=
      congrArg VmSystem.mapped (Except.ok.inj hs₂).symm
    rw [hmapped, hsame₂, if_pos hret, hheld.2]
  · rw [hst₂.follows.count, htaken hret, hlacks, List.length_drop, hsupply]

end Tianole.Mm
