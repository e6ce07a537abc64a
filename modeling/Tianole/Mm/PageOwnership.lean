import Mathlib.Data.List.Perm.Subperm
import Tianole.Mm.PageInit

/-! Who owns which physical page, over whole runs of the allocator. -/
namespace Tianole.Mm
open Memory Word Runs WordList

structure PageSystem where
  pages : PageAllocator
  /-- The pages that were allocated and not freed since. -/
  held : List ℕ

inductive PageAction where
  | alloc
  | free (page : ℕ)
  /-- Some other code stores a byte. -/
  | store (a v : ℕ)

def PageAllocator.clearLog (st : PageAllocator) : PageAllocator := { st with written := [] }

def PageAllocator.poke (st : PageAllocator) (a v : ℕ) : PageAllocator :=
  { st with mem := store st.mem a 1 v }

namespace PageSystem

/-- A step; the record of link words is that of this step. -/
def step (σ : PageSystem) : PageAction → Except Stop PageSystem
  | .alloc =>
      let (st, page) := allocPage σ.pages.clearLog
      .ok ⟨st, if page = 0 then σ.held else page :: σ.held⟩
  | .free page => (freePage σ.pages.clearLog page).map fun st => ⟨st, σ.held.erase page⟩
  | .store a v => .ok ⟨σ.pages.clearLog.poke a v, σ.held⟩

/-- Only held pages are freed, and nobody writes to a page that is with the allocator. -/
def Admissible (env : BootEnv) (mem₀ : Mem) (σ : PageSystem) : PageAction → Prop
  | .alloc => True
  | .free page => page ∈ σ.held
  | .store a _ => pageOf a ∈ σ.held ∨ pageOf a ∉ usablePages env mem₀

/-- The states after `init_free_pages` and any admissible steps. -/
def Reachable (env : BootEnv) (mem₀ : Mem) : PageSystem → Prop :=
  Reach step (fun σ => mmInitPages env (bootAllocator mem₀) = .ok σ.pages ∧ σ.held = [])
    (Admissible env mem₀)

/-- The invariant: the free pages `l` and the held ones are distinct usable pages. -/
structure Owned (env : BootEnv) (mem₀ : Mem) (σ : PageSystem) (l : List ℕ) : Prop where
  list : Holds σ.pages.mem σ.pages.freePages l
  head : σ.pages.freePages < 2 ^ 64
  free : ∀ p ∈ l, p ∈ usablePages env mem₀
  held : ∀ p ∈ σ.held, p ≠ 0 ∧ p ∈ usablePages env mem₀
  nodup : (σ.held ++ l).Nodup

section
variable {env : BootEnv} {mem₀ : Mem} {σ σ' : PageSystem} {l : List ℕ} {p : ℕ} {act : PageAction}

theorem usable_bounds (hok : BootMapOk env mem₀) (hp : p ∈ usablePages env mem₀) :
    pageSize ∣ p ∧ p + pageSize < 2 ^ 64 := offered_bounds hok (List.mem_filter.mp hp).1

/-- There are fewer pages than a word can count. -/
theorem Owned.length_lt (h : Owned env mem₀ σ l) (hok : BootMapOk env mem₀) :
    l.length + 1 < 2 ^ 64 := by
  have hsub : l ⊆ List.range (2 ^ 64 - pageSize) := by
    intro p hp
    have hbound := (usable_bounds hok (h.free p hp)).2
    simp only [pageSize] at hbound ⊢
    rw [List.mem_range]
    omega
  have hlen := (List.subperm_of_subset h.list.nodup hsub).length_le
  rw [List.length_range] at hlen
  simp only [pageSize] at hlen
  omega

theorem usable_nodup (hok : BootMapOk env mem₀) : (usablePages env mem₀).Nodup :=
  (offeredPages_nodup hok).sublist List.filter_sublist

theorem mmInitPages_scanInv (hok : BootMapOk env mem₀) {st : PageAllocator}
    (hs : mmInitPages env (bootAllocator mem₀) = .ok st) :
    ScanInv env mem₀ st (usablePages env mem₀) := by
  rcases mmInitPages_scanned hok with (⟨st', hok', hinv⟩ | herr) | herr
  · obtain rfl := Except.ok.inj (hok'.symm.trans hs)
    exact hinv
  · rw [herr] at hs
    cases hs
  · rw [herr] at hs
    cases hs

theorem owned_init (hok : BootMapOk env mem₀)
    (hs : mmInitPages env (bootAllocator mem₀) = .ok σ.pages) (hh : σ.held = []) :
    Owned env mem₀ σ ((usablePages env mem₀).foldl pushPage []) := by
  have hinv := mmInitPages_scanInv hok hs
  have hsub := foldl_pushPage_sublist (usablePages env mem₀) []
  have hnodup : (σ.held ++ (usablePages env mem₀).foldl pushPage []).Nodup := by
    rw [hh, List.nil_append]
    exact hinv.list.nodup
  exact ⟨hinv.list, hinv.head, fun p hp => by simpa using hsub.subset hp, by simp [hh], hnodup⟩

/-- The link words that a step to `σ'` wrote lie outside the held pages. -/
def WroteOutsideHeld (σ' : PageSystem) : Prop :=
  ∀ a ∈ σ'.pages.written, ∀ p ∈ σ'.held, a + 8 ≤ p ∨ p + pageSize ≤ a

/-- What an admissible step does to the list of free pages. -/
structure StepOwned (env : BootEnv) (mem₀ : Mem) (σ σ' : PageSystem) (l l' : List ℕ) : Prop where
  owned : Owned env mem₀ σ' l'
  count : σ.pages.freePageCount = l.length → σ'.pages.freePageCount = l'.length
  wrote : WroteOutsideHeld σ'

theorem Owned.alloc (h : Owned env mem₀ σ l) (hok : BootMapOk env mem₀) :
    ∃ σ', σ.step .alloc = .ok σ' ∧ StepOwned env mem₀ σ σ' l l.tail ∧
      (allocPage σ.pages).2 = l.headD 0 := by
  rcases h.list.cases with ⟨hnull, rfl⟩ | ⟨hne, rest, rfl, hrest⟩
  · have halloc : allocPage σ.pages.clearLog = (σ.pages.clearLog, 0) := if_pos hnull
    refine ⟨⟨σ.pages.clearLog, σ.held⟩, ?_,
      ⟨⟨h.list, h.head, h.free, h.held, h.nodup⟩, fun hc => hc, ?_⟩, ?_⟩
    · simp only [step, halloc, ↓reduceIte]
    · intro a ha
      cases ha
    · rw [allocPage, if_pos hnull]
      rfl
  · have hfree : σ.pages.clearLog.freePages ≠ 0 := hne
    have halloc : allocPage σ.pages.clearLog = (σ.pages.clearLog.pop, σ.pages.freePages) :=
      if_neg hfree
    have hmem : σ.pages.clearLog.pop.mem = σ.pages.mem := by
      simp only [PageAllocator.pop, PageAllocator.clearLog]
    have hnext : σ.pages.clearLog.pop.freePages = load σ.pages.mem σ.pages.freePages 8 := by
      simp only [PageAllocator.pop, PageAllocator.clearLog]
    have hlist : Holds σ.pages.clearLog.pop.mem σ.pages.clearLog.pop.freePages rest := by
      rw [hmem, hnext]
      exact hrest
    have hlt : σ.pages.clearLog.pop.freePages < 2 ^ 64 := by
      have hload : load σ.pages.mem σ.pages.freePages 8 < 256 ^ 8 := load_lt
      rw [hnext]
      simpa using hload
    have hlen := h.length_lt hok
    refine ⟨⟨σ.pages.clearLog.pop, σ.pages.freePages :: σ.held⟩, ?_,
      ⟨⟨hlist, hlt, fun p hp => h.free p (List.mem_cons_of_mem _ hp), ?_, ?_⟩,
        ?_, ?_⟩, ?_⟩
    · simp only [step, halloc, if_neg hne]
    · exact List.forall_mem_cons.mpr ⟨⟨hne, h.free _ (by simp)⟩, h.held⟩
    · exact List.perm_middle.nodup_iff.mp h.nodup
    · intro hc
      rw [List.length_cons] at hc hlen
      have hsub : sub64 (rest.length + 1) 1 = rest.length := sub64_of_le (by omega) (by omega)
      simpa [PageAllocator.pop, PageAllocator.clearLog, hc] using hsub
    · intro a ha
      cases ha
    · rw [allocPage, if_neg hne]
      rfl

theorem Owned.freePage (h : Owned env mem₀ σ l) (hok : BootMapOk env mem₀) (hp : p ∈ σ.held) :
    ∃ σ', σ.step (.free p) = .ok σ' ∧ StepOwned env mem₀ σ σ' l (p :: l) := by
  obtain ⟨hne, hu⟩ := h.held p hp
  obtain ⟨halign, hlt⟩ := usable_bounds hok hu
  have hfree : Mm.freePage σ.pages.clearLog p = .ok (addFreePage σ.pages.clearLog p) := by
    refine if_neg ?_
    rw [land_pageOffset_of_dvd halign]
    simpa using hne
  have hperm : (σ.held ++ l).Perm (σ.held.erase p ++ p :: l) :=
    ((List.perm_cons_erase hp).append_right l).trans List.perm_middle.symm
  have hnodup : (σ.held.erase p ++ p :: l).Nodup := hperm.nodup_iff.mp h.nodup
  have hdistinct : ∀ q ∈ l, q ≠ p := by
    rintro q hq rfl
    exact (List.nodup_append.mp h.nodup).2.2 q hp q hq rfl
  have hlen := h.length_lt hok
  refine ⟨⟨addFreePage σ.pages.clearLog p, σ.held.erase p⟩, ?_, ⟨⟨?_, ?_, ?_, ?_, hnodup⟩, ?_, ?_⟩⟩
  · simp only [step, hfree, Except.map]
  · refine h.list.push hne h.head fun q hq => ?_
    have hapart := pages_apart (usable_bounds hok (h.free q hq)).1 halign (hdistinct q hq)
    simp only [pageSize] at hapart
    omega
  · simp only [addFreePage]
    omega
  · exact List.forall_mem_cons.mpr ⟨hu, h.free⟩
  · exact fun q hq => h.held q (List.mem_of_mem_erase hq)
  · intro hc
    have hcount : wrap64 (σ.pages.freePageCount + 1) = l.length + 1 := by
      rw [hc]
      exact wrap64_of_lt hlen
    simpa [addFreePage, PageAllocator.clearLog] using hcount
  · intro a ha q hq
    obtain rfl : a = p := by simpa [addFreePage, PageAllocator.clearLog] using ha
    have hqp : q ≠ a := by
      rintro rfl
      exact (List.nodup_append.mp hnodup).2.2 q hq q (by simp) rfl
    have hapart := pages_apart (usable_bounds hok (h.held q (List.mem_of_mem_erase hq)).2).1 halign hqp
    simp only [pageSize] at hapart ⊢
    omega

theorem Owned.store (h : Owned env mem₀ σ l) (hok : BootMapOk env mem₀) {a v : ℕ}
    (ha : pageOf a ∈ σ.held ∨ pageOf a ∉ usablePages env mem₀) :
    ∃ σ', σ.step (.store a v) = .ok σ' ∧ StepOwned env mem₀ σ σ' l l := by
  have hlist : Holds (σ.pages.clearLog.poke a v).mem σ.pages.freePages l := by
    refine h.list.congr fun q hq x hx hx' => store_of_outside ?_
    by_contra hin
    have hpage : pageOf a = q := by
      have halign := (usable_bounds hok (h.free q hq)).1
      simp only [pageOf, pageSize] at *
      omega
    rw [hpage] at ha
    rcases ha with hheld | hun
    · exact (List.nodup_append.mp h.nodup).2.2 q hheld q hq rfl
    · exact hun (h.free q hq)
  refine ⟨⟨σ.pages.clearLog.poke a v, σ.held⟩, rfl,
    ⟨⟨hlist, h.head, h.free, h.held, h.nodup⟩, fun hc => hc, ?_⟩⟩
  intro b hb
  cases hb

/-- Every admissible step returns and keeps the invariant. -/
theorem Owned.step (h : Owned env mem₀ σ l) (hok : BootMapOk env mem₀)
    (ha : σ.Admissible env mem₀ act) :
    ∃ σ' l', σ.step act = .ok σ' ∧ StepOwned env mem₀ σ σ' l l' := by
  cases act with
  | alloc =>
    obtain ⟨σ', hs, hst, -⟩ := h.alloc hok
    exact ⟨σ', _, hs, hst⟩
  | free p =>
    obtain ⟨σ', hs, hst⟩ := h.freePage hok ha
    exact ⟨σ', _, hs, hst⟩
  | store a v =>
    obtain ⟨σ', hs, hst⟩ := h.store hok ha
    exact ⟨σ', _, hs, hst⟩

theorem Reachable.owned (h : Reachable env mem₀ σ) (hok : BootMapOk env mem₀) :
    ∃ l, Owned env mem₀ σ l := by
  refine Reach.invariant (I := fun σ => ∃ l, Owned env mem₀ σ l) h ?_ ?_
  · rintro σ ⟨hs, hh⟩
    exact ⟨_, owned_init hok hs hh⟩
  · rintro σ act σ' ⟨l, hl⟩ ha hs
    obtain ⟨σ₁, l', hs₁, hst⟩ := hl.step hok ha
    obtain rfl := Except.ok.inj (hs₁.symm.trans hs)
    exact ⟨l', hst.owned⟩

end

end PageSystem

/-! ### Ownership -/

section
variable {env : BootEnv} {mem₀ : Mem} {p : ℕ}

theorem unreserved_spec (halign : pageSize ∣ p) (hu : unreserved env mem₀ p = true) :
    rangeIsReserved env mem₀ p = false ∧
      ∃ tables, collectActivePageTables mem₀ env.cr3 = .ok tables ∧ p ∉ tables := by
  cases hr : rangeIsReserved env mem₀ p with
  | true =>
    rw [unreserved_of_reserved hr] at hu
    cases hu
  | false =>
    refine ⟨rfl, ?_⟩
    cases ht : collectActivePageTables mem₀ env.cr3 with
    | error e =>
      simp [unreserved, pageIsReserved, hr, archPageTableUsesPage_of_dvd halign, ht,
        Except.map] at hu
    | ok tables =>
      rw [unreserved_of_tables hr halign ht] at hu
      exact ⟨tables, rfl, by simpa using hu⟩

theorem tablePage_aligned {level table : ℕ} (h : TablePage mem₀ (activePml4 env.cr3) level table) :
    pageSize ∣ table := by
  have hmask : x86PageMask = 2 ^ 52 - 2 ^ 12 := rfl
  have hdvd (e : ℕ) : pageSize ∣ e &&& x86PageMask := by
    rw [hmask, Bits.land_mask (by decide)]
    exact Nat.dvd_mul_left _ _
  cases h with
  | root => exact hdvd env.cr3
  | next => exact hdvd _

/-- A page that may be handed out: it is free, whole in a conventional range, and overlaps
nothing that must stay. -/
structure Allocatable (env : BootEnv) (mem₀ : Mem) (held : List ℕ) (p : ℕ) : Prop where
  notHeld : p ∉ held
  aligned : pageSize ∣ p
  conventional : ∃ d ∈ conventionalRanges env mem₀, d.physicalStart ≤ p ∧ p + pageSize ≤ d.stop
  notReserved : ∀ x, p ≤ x → x < p + pageSize → ¬ ReservedByte env mem₀ x
  noTable : ∀ level table, TablePage mem₀ (activePml4 env.cr3) level table →
    table + pageSize ≤ p ∨ p + pageSize ≤ table

theorem allocatable_of_usable {held : List ℕ} (hok : BootMapOk env mem₀)
    (hp : p ∈ usablePages env mem₀) (hh : p ∉ held) : Allocatable env mem₀ held p := by
  obtain ⟨hoffered, hun⟩ := List.mem_filter.mp hp
  obtain ⟨halign, -⟩ := offered_bounds hok hoffered
  obtain ⟨d, hd, hpd⟩ := mem_offeredPages.mp hoffered
  obtain ⟨hrange, tables, htables, hnot⟩ := unreserved_spec halign hun
  refine ⟨hh, halign, ⟨d, hd, Descriptor.pages_bounds hpd⟩, fun x hx hx' hres => ?_,
    fun level table ht => ?_⟩
  · rw [rangeIsReserved_of_byte hok hres ⟨hx, hx'⟩] at hrange
    cases hrange
  · refine pages_apart (tablePage_aligned ht) halign ?_
    rintro rfl
    exact hnot (collectActivePageTables_complete htables ht)

end

/-- A boot memory map with two pages from `0x100000` on and one page at `high * 0x10000`. -/
def exampleBoot (high : UInt8) : Mem := fun a =>
  if 0x21000 ≤ a then 0
  else (List.lookup a [(0x1000a, 2), (0x10010, 80), (0x10020, 40), (0x20000, 7), (0x2000a, 0x10),
    (0x20018, 2), (0x20028, 7), (0x20032, high), (0x20040, 1)]).getD 0

def exampleEnv : BootEnv := ⟨0x30000, 0x31000, 0x10000, 0x40000⟩

theorem exampleBoot_ok {high : UInt8} {start : ℕ}
    (hf : (exampleEnv.memoryMap (exampleBoot high), exampleEnv.memoryMapSize (exampleBoot high),
      exampleEnv.memoryDescriptorSize (exampleBoot high)) = (0x20000, 80, 40))
    (hr : conventionalRanges exampleEnv (exampleBoot high) =
      [⟨7, 0x100000, 2⟩, ⟨7, start, 1⟩]) (halign : pageSize ∣ start)
    (hstart : start + pageSize ≤ 0x100000 ∨ 0x102000 ≤ start ∧ start < 2 ^ 63) :
    BootMapOk exampleEnv (exampleBoot high) := by
  obtain ⟨hmap, hrest⟩ := Prod.mk.inj hf
  obtain ⟨hsize, hstride⟩ := Prod.mk.inj hrest
  have hpage : pageSize = 4096 := rfl
  refine ⟨by decide, by decide, ?_, ?_, ?_, ?_, ?_⟩
  · rw [hmap, hsize]
    omega
  · rw [hsize, hstride]
    omega
  · rw [hr]
    simp only [List.forall_mem_cons]
    exact ⟨by decide, halign, by simp⟩
  · rw [hr]
    simp only [List.forall_mem_cons, Descriptor.stop]
    exact ⟨by decide, by omega, by simp⟩
  · rw [hr]
    simp only [List.pairwise_cons, List.mem_singleton, forall_eq, Descriptor.stop]
    exact ⟨fun x hx => by omega, by simp⟩

theorem exampleBoot_high : conventionalRanges exampleEnv (exampleBoot 0x20) =
    [⟨7, 0x100000, 2⟩, ⟨7, 0x200000, 1⟩] ∧ BootMapOk exampleEnv (exampleBoot 0x20) := by
  have hr : conventionalRanges exampleEnv (exampleBoot 0x20) =
      [⟨7, 0x100000, 2⟩, ⟨7, 0x200000, 1⟩] := by decide +kernel
  exact ⟨hr, exampleBoot_ok (by decide +kernel) hr (by decide) (by decide)⟩

/-- Physical page ownership. `mm_init` returns or panics, and its link words change no byte of
the kernel, the boot information or the memory map. After it, whatever is allocated and freed:
a page that `alloc_page` returns is not held and may be handed out, and admissible steps return
and write link words outside the held pages only. -/
theorem page_ownership {env : BootEnv} {mem₀ : Mem} (hok : BootMapOk env mem₀) :
    mmInitPages env (bootAllocator mem₀) ≠ .error .hang ∧
    (∀ st, mmInitPages env (bootAllocator mem₀) = .ok st → ∀ a ∈ st.written, ∀ x, a ≤ x → x < a + 8 →
      ¬ ReservedByte env mem₀ x) ∧
    ∀ σ, PageSystem.Reachable env mem₀ σ →
      ((allocPage σ.pages).2 ≠ 0 → Allocatable env mem₀ σ.held (allocPage σ.pages).2) ∧
      ∀ act, σ.Admissible env mem₀ act → ∃ σ', σ.step act = .ok σ' ∧ σ'.WroteOutsideHeld := by
  refine ⟨?_, fun st hs a ha x hx hx' hres => ?_, fun σ hσ => ?_⟩
  · rcases mmInitPages_scanned hok with (⟨st, hs, -⟩ | hs) | hs <;> simp [hs]
  · -- The link word lies in a page that was pushed.
    have hinv := PageSystem.mmInitPages_scanInv hok hs
    rw [hinv.written, List.mem_reverse] at ha
    have hpage : pageOf x = a := by
      have halign := (PageSystem.usable_bounds hok ha).1
      simp only [pageOf, pageSize] at *
      omega
    refine not_usable_of_reserved hok hres ?_
    rwa [hpage]
  · obtain ⟨l, hl⟩ := hσ.owned hok
    refine ⟨fun hne => ?_, fun act ha => ?_⟩
    · obtain ⟨σ', -, -, hpage⟩ := hl.alloc hok
      rw [hpage] at hne ⊢
      cases l with
      | nil => exact absurd rfl hne
      | cons p rest =>
        refine allocatable_of_usable hok (hl.free p (by simp)) fun hh => ?_
        exact (List.nodup_append.mp hl.nodup).2.2 p hh p (by simp) rfl
    · obtain ⟨σ', l', hs, hst⟩ := hl.step hok ha
      exact ⟨σ', hs, hst.wrote⟩

theorem page_ownership_example : ∃ σ, PageSystem.Reachable exampleEnv (exampleBoot 0x20) σ ∧
    Allocatable exampleEnv (exampleBoot 0x20) σ.held 0x200000 := by
  obtain ⟨-, hok⟩ := exampleBoot_high
  have hrun : (mmInitPages exampleEnv (bootAllocator (exampleBoot 0x20))).map
      (fun st => (allocPage st).2) = .ok 0x200000 := by decide +kernel
  obtain ⟨st, hs, hpage⟩ := map_ok hrun
  have hσ : PageSystem.Reachable exampleEnv (exampleBoot 0x20) ⟨st, []⟩ := .start ⟨hs, rfl⟩
  have hsafe := ((page_ownership hok).2.2 _ hσ).1
  rw [hpage] at hsafe
  exact ⟨_, hσ, hsafe (by decide)⟩

/-! ### Completeness -/

/-- The successive results of `alloc_page` before its first 0. -/
inductive Drains : PageAllocator → List ℕ → Prop
  | done {st : PageAllocator} : (allocPage st).2 = 0 → Drains st []
  | next {st : PageAllocator} {results : List ℕ} : (allocPage st).2 ≠ 0 →
      Drains (allocPage st).1 results → Drains st ((allocPage st).2 :: results)

section
variable {env : BootEnv} {mem₀ : Mem} {st : PageAllocator} {σ : PageSystem} {l : List ℕ} {p : ℕ}

theorem Drains.ne_zero (h : Drains st l) (hp : p ∈ l) : p ≠ 0 := by
  induction h with
  | done => cases hp
  | next hne _ ih =>
    rcases List.mem_cons.mp hp with rfl | hp
    · exact hne
    · exact ih hp

theorem drains_of_holds (h : Holds st.mem st.freePages l) : Drains st l := by
  induction l generalizing st with
  | nil =>
    rcases h.cases with ⟨hnull, -⟩ | ⟨-, rest, hl, -⟩
    · exact .done (by rw [allocPage, if_pos hnull])
    · cases hl
  | cons p l ih =>
    rcases h.cases with ⟨-, hl⟩ | ⟨hne, rest, hl, hrest⟩
    · cases hl
    · obtain ⟨rfl, rfl⟩ := List.cons.inj hl
      have halloc : allocPage st = (st.pop, st.freePages) := if_neg hne
      have hpop : Drains (allocPage st).1 l := by
        rw [halloc]
        exact ih (by simpa only [PageAllocator.pop] using hrest)
      have hnext := Drains.next (by rw [halloc]; exact hne) hpop
      rwa [halloc] at hnext

/-- Without a page at address 0 nothing is lost. -/
theorem foldl_pushPage_eq {ps : List ℕ} (h : 0 ∉ ps) : ps.foldl pushPage l = ps.reverse ++ l := by
  induction ps generalizing l with
  | nil => rfl
  | cons p ps ih =>
    have hp : p ≠ 0 := fun h0 => h (by simp [h0])
    rw [List.foldl_cons, pushPage, if_neg hp, ih fun h0 => h (by simp [h0])]
    simp

/-- All usable pages are handed out, each once, and the counter knows how many they are; and the
counter stays right. -/
structure Complete (env : BootEnv) (mem₀ : Mem) (st : PageAllocator) : Prop where
  init : ∃ results, Drains st results ∧ results.Nodup ∧
    (∀ p, p ∈ results ↔ (∃ d ∈ conventionalRanges env mem₀, p ∈ d.pages) ∧
      unreserved env mem₀ p = true) ∧ st.freePageCount = results.length
  later : ∀ σ, PageSystem.Reachable env mem₀ σ → ∃ results, Drains σ.pages results ∧
    σ.pages.freePageCount = results.length

theorem mem_usablePages : p ∈ usablePages env mem₀ ↔
    (∃ d ∈ conventionalRanges env mem₀, p ∈ d.pages) ∧ unreserved env mem₀ p = true := by
  rw [usablePages, List.mem_filter, mem_offeredPages]

theorem init_count (hok : BootMapOk env mem₀)
    (hs : mmInitPages env (bootAllocator mem₀) = .ok st) (hzero : 0 ∉ usablePages env mem₀) :
    Holds st.mem st.freePages (usablePages env mem₀).reverse ∧
      st.freePageCount = (usablePages env mem₀).reverse.length := by
  have hinv := PageSystem.mmInitPages_scanInv hok hs
  have hlist := hinv.list
  rw [foldl_pushPage_eq hzero, List.append_nil] at hlist
  have howned : PageSystem.Owned env mem₀ ⟨st, []⟩ (usablePages env mem₀).reverse :=
    ⟨hlist, hinv.head, fun p hp => List.mem_reverse.mp hp, by simp, by simpa using hlist.nodup⟩
  have hlen := howned.length_lt hok
  rw [List.length_reverse] at hlen ⊢
  exact ⟨hlist, hinv.count.trans (wrap64_of_lt (by omega))⟩

theorem reachable_count (hok : BootMapOk env mem₀) (hzero : 0 ∉ usablePages env mem₀)
    (h : PageSystem.Reachable env mem₀ σ) :
    ∃ l, PageSystem.Owned env mem₀ σ l ∧ σ.pages.freePageCount = l.length := by
  refine Reach.invariant
    (I := fun σ => ∃ l, PageSystem.Owned env mem₀ σ l ∧ σ.pages.freePageCount = l.length) h ?_ ?_
  · rintro σ ⟨hs, hh⟩
    have howned := PageSystem.owned_init hok hs hh
    rw [foldl_pushPage_eq hzero, List.append_nil] at howned
    exact ⟨_, howned, (init_count hok hs hzero).2⟩
  · rintro σ act σ' ⟨l, hl, hc⟩ ha hs
    obtain ⟨σ₁, l', hs₁, hst⟩ := hl.step hok ha
    obtain rfl := Except.ok.inj (hs₁.symm.trans hs)
    exact ⟨l', hst.owned, hst.count hc⟩

end

/-- The allocator is complete exactly when physical page 0 is not one of the pages that it
would have to hand out. -/
theorem page_allocator_complete_iff {env : BootEnv} {mem₀ : Mem} {st : PageAllocator}
    (hok : BootMapOk env mem₀) (hs : mmInitPages env (bootAllocator mem₀) = .ok st) :
    Complete env mem₀ st ↔ ¬ ((∃ d ∈ conventionalRanges env mem₀, 0 ∈ d.pages) ∧
      unreserved env mem₀ 0 = true) := by
  constructor
  · -- A result of `alloc_page` is never 0.
    rintro ⟨⟨results, hd, -, hall, -⟩, -⟩ hzero
    exact hd.ne_zero ((hall 0).mpr hzero) rfl
  · intro hzero
    have hzero' : 0 ∉ usablePages env mem₀ := fun h0 => hzero (mem_usablePages.mp h0)
    obtain ⟨hlist, hcount⟩ := init_count hok hs hzero'
    refine ⟨⟨_, drains_of_holds hlist, List.nodup_reverse.mpr (PageSystem.usable_nodup hok),
      fun p => ?_, hcount⟩, fun σ hσ => ?_⟩
    · rw [List.mem_reverse]
      exact mem_usablePages
    · obtain ⟨l, hl, hc⟩ := reachable_count hok hzero' hσ
      exact ⟨l, drains_of_holds hl.list, hc⟩

theorem page_allocator_complete_iff_example : ∃ st,
    mmInitPages exampleEnv (bootAllocator (exampleBoot 0x20)) = .ok st ∧
      Complete exampleEnv (exampleBoot 0x20) st := by
  obtain ⟨hr, hok⟩ := exampleBoot_high
  have hrun : (mmInitPages exampleEnv (bootAllocator (exampleBoot 0x20))).map
      PageAllocator.freePageCount = .ok 3 := by decide +kernel
  obtain ⟨st, hs, -⟩ := map_ok hrun
  refine ⟨st, hs, (page_allocator_complete_iff hok hs).mpr ?_⟩
  rintro ⟨hzero, -⟩
  rw [hr] at hzero
  revert hzero
  decide

/-- With page 0 among the conventional pages, the pages that were pushed before it are lost: the
counter says 3, and `alloc_page` has nothing to give. -/
theorem page_zero_loses_pages : ∃ st, BootMapOk exampleEnv (exampleBoot 0) ∧
    mmInitPages exampleEnv (bootAllocator (exampleBoot 0)) = .ok st ∧ st.freePageCount = 3 ∧
      (allocPage st).2 = 0 ∧ ¬ Complete exampleEnv (exampleBoot 0) st := by
  have hr : conventionalRanges exampleEnv (exampleBoot 0) =
      [⟨7, 0x100000, 2⟩, ⟨7, 0, 1⟩] := by decide +kernel
  have hok : BootMapOk exampleEnv (exampleBoot 0) :=
    exampleBoot_ok (by decide +kernel) hr (by decide) (by decide)
  have hrun : (mmInitPages exampleEnv (bootAllocator (exampleBoot 0))).map
      (fun st => (st.freePageCount, (allocPage st).2)) = .ok (3, 0) := by decide +kernel
  obtain ⟨st, hs, hst⟩ := map_ok hrun
  obtain ⟨hcount, hpage⟩ := Prod.mk.inj hst
  refine ⟨st, hok, hs, hcount, hpage, ?_⟩
  rintro ⟨⟨results, hd, -, -, hlen⟩, -⟩
  cases hd with
  | done => rw [hcount] at hlen; cases hlen
  | next hne => exact hne hpage

end Tianole.Mm
