import Mathlib.Data.List.Pairwise
import Tianole.Lib.WordList
import Tianole.Mm.PageAlloc

/-! What `init_free_pages` makes of the boot memory map: which pages it pushes, in which order,
and what the free list then is. -/
namespace Tianole.Mm
open Memory Word Runs WordList

namespace Descriptor

def stop (d : Descriptor) : ℕ := d.physicalStart + d.numberOfPages * pageSize

/-- The pages of a range, in ascending order. -/
def pages (d : Descriptor) : List ℕ :=
  (List.range d.numberOfPages).map fun i => d.physicalStart + i * pageSize

/-- The pages that a descriptor offers, last one first. -/
def offered (d : Descriptor) : List ℕ :=
  if d.type = bootMemoryTypeConventional then d.pages.reverse else []

end Descriptor

/-- How many descriptors fit into the memory map. -/
def bootDescriptorCount (env : BootEnv) (mem : Mem) : ℕ :=
  if env.memoryMapSize mem < descriptorSize then 0
  else (env.memoryMapSize mem - descriptorSize) / env.memoryDescriptorSize mem + 1

def bootDescriptors (env : BootEnv) (mem : Mem) : List Descriptor :=
  (List.range (bootDescriptorCount env mem)).map fun i =>
    descriptorAt mem (env.memoryMap mem + i * env.memoryDescriptorSize mem)

def conventionalRanges (env : BootEnv) (mem : Mem) : List Descriptor :=
  (bootDescriptors env mem).filter fun d => d.type = bootMemoryTypeConventional

/-- The boot memory maps that the allocator is meant for. No range comes within a page of the
end of the address space, and neither does the offset of the scan. -/
structure BootMapOk (env : BootEnv) (mem : Mem) : Prop where
  kernel : env.kernelEnd + pageSize < 2 ^ 64
  info : env.bootInfo + bootInfoSize + pageSize < 2 ^ 64
  map : env.memoryMap mem + env.memoryMapSize mem + pageSize < 2 ^ 64
  stride : env.memoryMapSize mem + env.memoryDescriptorSize mem < 2 ^ 64
  aligned : ∀ d ∈ conventionalRanges env mem, pageSize ∣ d.physicalStart
  bound : ∀ d ∈ conventionalRanges env mem, d.stop + pageSize < 2 ^ 64
  disjoint : (conventionalRanges env mem).Pairwise fun d e =>
    ∀ x, ¬ (d.physicalStart ≤ x ∧ x < d.stop ∧ e.physicalStart ≤ x ∧ x < e.stop)

/-- The pages of the conventional ranges, in the order in which they are offered. -/
def offeredPages (env : BootEnv) (mem : Mem) : List ℕ :=
  (conventionalRanges env mem).flatMap fun d => d.pages.reverse

/-- `page_is_reserved` is false, as asked before the first page is pushed. -/
def unreserved (env : BootEnv) (mem : Mem) (page : ℕ) : Bool :=
  match pageIsReserved env mem ⟨[], false⟩ page with
  | .ok (_, false) => true
  | _ => false

def usablePages (env : BootEnv) (mem : Mem) : List ℕ := (offeredPages env mem).filter (unreserved env mem)

/-- The bytes of the kernel image, the boot information and the memory map. -/
def ReservedByte (env : BootEnv) (mem : Mem) (x : ℕ) : Prop :=
  (env.kernelStart ≤ x ∧ x < env.kernelEnd) ∨
    (env.bootInfo ≤ x ∧ x < env.bootInfo + bootInfoSize) ∨
    (env.memoryMap mem ≤ x ∧ x < env.memoryMap mem + env.memoryMapSize mem)

/-- The page of an address. -/
def pageOf (x : ℕ) : ℕ := x / pageSize * pageSize

section
variable {env : BootEnv} {mem mem₀ : Mem} {x page lo hi : ℕ}

/-- Rounding the ends of a range outwards does not lose a byte of it. -/
theorem rangesOverlap_of_byte (hpage : page ≤ x ∧ x < page + pageSize) (hlo : lo ≤ x) (hhi : x < hi)
    (hw : hi + pageSize < 2 ^ 64) :
    rangesOverlap page (wrap64 (page + pageSize)) (alignDown lo pageSize) (alignUp hi pageSize) =
      true := by
  have hsize : pageSize = 2 ^ 12 := rfl
  have hup : hi ≤ alignUp hi pageSize := by
    rw [hsize] at hw ⊢
    rw [alignUp_eq (by decide) (by omega)]
    omega
  have hdown : alignDown lo pageSize ≤ lo := Nat.and_le_left
  rw [wrap64_of_lt (by omega), rangesOverlap, Bool.and_eq_true, decide_eq_true_iff,
    decide_eq_true_iff]
  omega

theorem rangeIsReserved_of_byte (hok : BootMapOk env mem) (hx : ReservedByte env mem x)
    (hpage : page ≤ x ∧ x < page + pageSize) : rangeIsReserved env mem page = true := by
  have hinfo := hok.info
  have hmap := hok.map
  have hsize : pageSize = 4096 := rfl
  simp only [rangeIsReserved, Bool.or_eq_true]
  rcases hx with ⟨hlo, hhi⟩ | ⟨hlo, hhi⟩ | ⟨hlo, hhi⟩
  · exact .inl (.inl (rangesOverlap_of_byte hpage hlo hhi hok.kernel))
  · rw [wrap64_of_lt (n := env.bootInfo + bootInfoSize) (by omega)]
    exact .inl (.inr (rangesOverlap_of_byte hpage hlo hhi hinfo))
  · rw [wrap64_of_lt (n := env.memoryMap mem + env.memoryMapSize mem) (by omega)]
    exact .inr (rangesOverlap_of_byte hpage hlo hhi hmap)

theorem pageOf_bounds (x : ℕ) : pageOf x ≤ x ∧ x < pageOf x + pageSize := by
  simp only [pageOf, pageSize]
  omega

/-- A byte whose page may be pushed is none of the reserved ones. -/
theorem not_usable_of_reserved (hok : BootMapOk env mem) (hx : ReservedByte env mem x) :
    pageOf x ∉ usablePages env mem := by
  intro hm
  have hun := (List.mem_filter.mp hm).2
  simp [unreserved, pageIsReserved, rangeIsReserved_of_byte hok hx (pageOf_bounds x)] at hun

end

/-! ### One page -/

/-- The free list after a push. A page at address 0 looks like the end of the list. -/
def pushPage (l : List ℕ) (page : ℕ) : List ℕ := if page = 0 then [] else page :: l

/-- The allocator in the middle of `init_free_pages`, when the pages `pushed` have been pushed. -/
structure ScanInv (env : BootEnv) (mem₀ : Mem) (st : PageAllocator) (pushed : List ℕ) : Prop where
  /-- Only pages that may be pushed have been written to. -/
  agree : ∀ x, pageOf x ∉ usablePages env mem₀ → st.mem x = mem₀ x
  /-- The tables are collected before the first write. -/
  fresh : st.record.ready = false → st.mem = mem₀
  recorded : st.record.ready = true → collectActivePageTables mem₀ env.cr3 = .ok st.record.pages
  usable : pushed ⊆ usablePages env mem₀
  list : Holds st.mem st.freePages (pushed.foldl pushPage [])
  head : st.freePages < 2 ^ 64
  count : st.freePageCount = wrap64 pushed.length
  written : st.written = pushed.reverse

section
variable {env : BootEnv} {mem mem₀ : Mem} {st st' : PageAllocator} {pushed : List ℕ}
  {record : TableRecord} {page : ℕ} {reserved : Bool} {e : Stop}

theorem bootAllocator_scanInv : ScanInv env mem₀ (bootAllocator mem₀) [] :=
  ⟨fun _ _ => rfl, fun _ => rfl, by simp [bootAllocator], by simp, holds_null,
    by simp [bootAllocator], rfl, rfl⟩

theorem ScanInv.reservedByte (h : ScanInv env mem₀ st pushed) (hok : BootMapOk env mem₀) {x : ℕ}
    (hx : ReservedByte env mem₀ x) : st.mem x = mem₀ x :=
  h.agree x (not_usable_of_reserved hok hx)

/-- The boot information reads as at the start. -/
theorem ScanInv.fields (h : ScanInv env mem₀ st pushed) (hok : BootMapOk env mem₀) :
    env.memoryMap st.mem = env.memoryMap mem₀ ∧ env.memoryMapSize st.mem = env.memoryMapSize mem₀ ∧
      env.memoryDescriptorSize st.mem = env.memoryDescriptorSize mem₀ := by
  have hfield (k : ℕ) (hk : k + 8 ≤ bootInfoSize) :
      load st.mem (env.bootInfo + k) 8 = load mem₀ (env.bootInfo + k) 8 :=
    load_congr fun x hx hx' => h.reservedByte hok (.inr (.inl ⟨by omega, by omega⟩))
  exact ⟨hfield 8 (by decide), hfield 16 (by decide), hfield 32 (by decide)⟩

theorem ScanInv.rangeIsReserved (h : ScanInv env mem₀ st pushed) (hok : BootMapOk env mem₀) :
    rangeIsReserved env st.mem page = rangeIsReserved env mem₀ page := by
  obtain ⟨hmap, hsize, -⟩ := h.fields hok
  simp only [Mm.rangeIsReserved, hmap, hsize]

theorem unreserved_of_reserved (h : Mm.rangeIsReserved env mem page = true) :
    unreserved env mem page = false := by
  simp [unreserved, pageIsReserved, h]

theorem unreserved_of_tables {pages : List ℕ} (h : Mm.rangeIsReserved env mem page = false)
    (halign : pageSize ∣ page) (hp : collectActivePageTables mem env.cr3 = .ok pages) :
    unreserved env mem page = !decide (page ∈ pages) := by
  simp only [unreserved, pageIsReserved, h, archPageTableUsesPage_of_dvd halign, hp, Except.map]
  by_cases hm : page ∈ pages <;> simp [hm]

/-- A query in the middle of the scan has the answer of the start. -/
theorem ScanInv.query (h : ScanInv env mem₀ st pushed) (hok : BootMapOk env mem₀)
    (halign : pageSize ∣ page)
    (hq : pageIsReserved env st.mem st.record page = .ok (record, reserved)) :
    unreserved env mem₀ page = !reserved ∧ (record.ready = false → st.mem = mem₀) ∧
      (record.ready = true → collectActivePageTables mem₀ env.cr3 = .ok record.pages) ∧
      (reserved = false → record.ready = true) := by
  rw [pageIsReserved, h.rangeIsReserved hok] at hq
  cases hr : Mm.rangeIsReserved env mem₀ page with
  | true =>
    rw [hr, if_pos rfl] at hq
    obtain ⟨rfl, rfl⟩ := Prod.mk.inj (Except.ok.inj hq)
    exact ⟨unreserved_of_reserved hr, h.fresh, h.recorded, by simp⟩
  | false =>
    rw [hr, if_neg (by simp), archPageTableUsesPage_of_dvd halign] at hq
    cases hready : st.record.ready with
    | true =>
      rw [hready, if_pos rfl] at hq
      obtain ⟨rfl, rfl⟩ := Prod.mk.inj (Except.ok.inj hq)
      exact ⟨unreserved_of_tables hr halign (h.recorded hready), h.fresh, h.recorded,
        fun _ => hready⟩
    | false =>
      rw [hready, if_neg (by simp), h.fresh hready] at hq
      obtain ⟨pages, hpages, hq⟩ := map_ok hq
      obtain ⟨rfl, rfl⟩ := Prod.mk.inj hq
      exact ⟨unreserved_of_tables hr halign hpages, fun _ => h.fresh hready, fun _ => hpages,
        fun _ => rfl⟩

theorem pageIsReserved_error (hq : pageIsReserved env mem record page = .error e) :
    e = .panic .tooManyActivePageTablePages := by
  unfold pageIsReserved archPageTableUsesPage at hq
  split at hq
  next => cases hq
  next =>
    split at hq
    next => cases hq
    next =>
      split at hq
      next => cases hq
      next => exact collectActivePageTables_error (map_error hq)

theorem Descriptor.mem_pages {d : Descriptor} : page ∈ d.pages ↔
    ∃ i < d.numberOfPages, page = d.physicalStart + i * pageSize := by
  simp only [Descriptor.pages, List.mem_map, List.mem_range, eq_comm (a := page)]

theorem Descriptor.pages_bounds {d : Descriptor} (hp : page ∈ d.pages) :
    d.physicalStart ≤ page ∧ page + pageSize ≤ d.stop := by
  obtain ⟨i, hi, rfl⟩ := mem_pages.mp hp
  have hle : (i + 1) * pageSize ≤ d.numberOfPages * pageSize := Nat.mul_le_mul_right _ hi
  rw [Nat.add_mul] at hle
  simp only [Descriptor.stop]
  omega

theorem mem_offeredPages : page ∈ offeredPages env mem ↔
    ∃ d ∈ conventionalRanges env mem, page ∈ d.pages := by
  simp [offeredPages]

theorem offered_bounds (hok : BootMapOk env mem) (hp : page ∈ offeredPages env mem) :
    pageSize ∣ page ∧ page + pageSize < 2 ^ 64 := by
  obtain ⟨d, hd, hpd⟩ := mem_offeredPages.mp hp
  have hbound := hok.bound d hd
  have hpages := Descriptor.pages_bounds hpd
  have hsize : pageSize = 4096 := rfl
  refine ⟨?_, by omega⟩
  obtain ⟨i, -, rfl⟩ := Descriptor.mem_pages.mp hpd
  exact Nat.dvd_add (hok.aligned d hd) (Nat.dvd_mul_left _ _)

theorem pages_nodup (d : Descriptor) : d.pages.Nodup := by
  refine List.nodup_range.map fun i j hij => ?_
  simp only [pageSize] at hij
  omega

theorem offeredPages_nodup (hok : BootMapOk env mem) : (offeredPages env mem).Nodup := by
  refine List.nodup_flatMap.mpr ⟨fun d _ => List.nodup_reverse.mpr (pages_nodup d),
    hok.disjoint.imp fun {d e} hde p hpd hpe => ?_⟩
  have hd := Descriptor.pages_bounds (List.mem_reverse.mp hpd)
  have he := Descriptor.pages_bounds (List.mem_reverse.mp hpe)
  have hsize : pageSize = 4096 := rfl
  exact hde p ⟨hd.1, by omega, he.1, by omega⟩

/-- Distinct pages do not share a byte. -/
theorem pages_apart {p q : ℕ} (hp : pageSize ∣ p) (hq : pageSize ∣ q) (hne : p ≠ q) :
    p + pageSize ≤ q ∨ q + pageSize ≤ p := by
  obtain ⟨i, rfl⟩ := hp
  obtain ⟨j, rfl⟩ := hq
  simp only [pageSize] at *
  omega

/-- Pushed pages lie on the list in reverse order, as far as they are still there. -/
theorem foldl_pushPage_sublist (ps l : List ℕ) : (ps.foldl pushPage l).Sublist (ps.reverse ++ l) := by
  induction ps generalizing l with
  | nil => exact List.Sublist.refl _
  | cons p ps ih =>
    rw [List.foldl_cons, List.reverse_cons, List.append_assoc]
    refine (ih (pushPage l p)).trans (List.Sublist.append_left ?_ _)
    unfold pushPage
    split
    · exact List.nil_sublist _
    · exact List.Sublist.refl _

theorem ScanInv.push (h : ScanInv env mem₀ st pushed) (hok : BootMapOk env mem₀)
    (hu : page ∈ usablePages env mem₀) (hnew : page ∉ pushed) (hready : st.record.ready = true) :
    ScanInv env mem₀ (addFreePage st page) (pushed ++ [page]) := by
  have halign {p : ℕ} (hp : p ∈ usablePages env mem₀) := offered_bounds hok (List.mem_filter.mp hp).1
  obtain ⟨hdvd, hlt⟩ := halign hu
  refine ⟨fun x hx => ?_, fun hr => ?_, h.recorded, ?_, ?_, by simp only [addFreePage]; omega, ?_, ?_⟩
  · -- A byte of the link word lies in the page.
    refine (store_of_outside ?_).trans (h.agree x hx)
    by_contra hin
    refine hx ?_
    have hpage : pageOf x = page := by
      simp only [pageOf, pageSize] at *
      omega
    rwa [hpage]
  · have hr' : st.record.ready = false := hr
    rw [hready] at hr'
    cases hr'
  · intro p hp
    rcases List.mem_append.mp hp with hp | hp
    · exact h.usable hp
    · rwa [List.mem_singleton.mp hp]
  · rw [List.foldl_append, List.foldl_cons, List.foldl_nil, pushPage]
    simp only [addFreePage]
    split
    next hzero => rw [hzero]; exact holds_null
    next hzero =>
      refine h.list.push hzero h.head fun q hq => ?_
      have hq' : q ∈ pushed := by simpa using (foldl_pushPage_sublist pushed []).subset hq
      have hne : q ≠ page := by
        rintro rfl
        exact hnew hq'
      have hapart := pages_apart (halign (h.usable hq')).1 hdvd hne
      simp only [pageSize] at hapart
      omega
  · simp only [addFreePage, h.count, wrap64, List.length_append, List.length_singleton]
    omega
  · simp [addFreePage, h.written]

end

/-! ### The loops -/

/-- The result of a part of the scan that has offered the pages `offered`: unless there are too
many page tables, those that are not reserved have been pushed. -/
def Scanned (env : BootEnv) (mem₀ : Mem) (offered : List ℕ) (r : Except Stop PageAllocator) : Prop :=
  (∃ st, r = .ok st ∧ ScanInv env mem₀ st (offered.filter (unreserved env mem₀))) ∨
    r = .error (.panic .tooManyActivePageTablePages)

section
variable {env : BootEnv} {mem₀ : Mem} {st : PageAllocator} {offered offered' later : List ℕ}
  {page n k : ℕ} {r : Except Stop PageAllocator} {d : Descriptor}

theorem Scanned.ok (h : ScanInv env mem₀ st (offered.filter (unreserved env mem₀))) :
    Scanned env mem₀ offered (.ok st) := .inl ⟨st, rfl, h⟩

theorem Scanned.bind {f : PageAllocator → Except Stop PageAllocator}
    (hr : Scanned env mem₀ offered r)
    (hf : ∀ st, ScanInv env mem₀ st (offered.filter (unreserved env mem₀)) →
      Scanned env mem₀ offered' (f st)) : Scanned env mem₀ offered' (r.bind f) := by
  rcases hr with ⟨st, rfl, hst⟩ | rfl
  · exact hf st hst
  · exact .inr rfl

theorem offerPage_scanned (hok : BootMapOk env mem₀)
    (h : ScanInv env mem₀ st (offered.filter (unreserved env mem₀)))
    (hsplit : offeredPages env mem₀ = offered ++ page :: later) :
    Scanned env mem₀ (offered ++ [page]) (offerPage env st page) := by
  have hpage : page ∈ offeredPages env mem₀ := by simp [hsplit]
  obtain ⟨halign, -⟩ := offered_bounds hok hpage
  cases hq : pageIsReserved env st.mem st.record page with
  | error e =>
    right
    rw [offerPage, hq, pageIsReserved_error hq]
    rfl
  | ok answer =>
    obtain ⟨record, reserved⟩ := answer
    obtain ⟨hun, hfresh, hrec, hready⟩ := h.query hok halign hq
    have hrecord : ScanInv env mem₀ { st with record := record }
        (offered.filter (unreserved env mem₀)) :=
      ⟨h.agree, hfresh, hrec, h.usable, h.list, h.head, h.count, h.written⟩
    left
    refine ⟨_, by rw [offerPage, hq]; rfl, ?_⟩
    rw [List.filter_append]
    cases reserved with
    | true => simpa [hun] using hrecord
    | false =>
      have hnew : page ∉ offered.filter (unreserved env mem₀) := by
        have hnodup := offeredPages_nodup hok
        rw [hsplit] at hnodup
        intro hm
        exact (List.nodup_append.mp hnodup).2.2 page (List.mem_filter.mp hm).1 page (by simp) rfl
      have hpush := hrecord.push hok (List.mem_filter.mpr ⟨hpage, hun⟩) hnew (hready rfl)
      simpa [hun] using hpush

/-- The loop of a range, from the page with number `k` down to the first one. -/
theorem rangeLoop_scanned (hok : BootMapOk env mem₀) {start : ℕ}
    (h : ScanInv env mem₀ st (offered.filter (unreserved env mem₀))) (hk : k < n)
    (hlt : start + k * pageSize < 2 ^ 64)
    (hsplit : offeredPages env mem₀ = offered ++
      ((List.range (k + 1)).map fun i => start + i * pageSize).reverse ++ later) :
    Scanned env mem₀ (offered ++ ((List.range (k + 1)).map fun i => start + i * pageSize).reverse)
      (rangeLoop env start n st (start + k * pageSize)) := by
  induction k generalizing n st offered with
  | zero =>
    obtain ⟨n, rfl⟩ : ∃ m, n = m + 1 := ⟨n - 1, by omega⟩
    have hone : ((List.range (0 + 1)).map fun i => start + i * pageSize).reverse = [start] := by simp
    rw [hone] at hsplit ⊢
    rw [rangeLoop, Nat.zero_mul, Nat.add_zero]
    have hsplit' : offeredPages env mem₀ = offered ++ start :: later := by simpa using hsplit
    refine (offerPage_scanned hok h hsplit').bind fun st' hst' => ?_
    rw [if_pos rfl]
    exact .ok hst'
  | succ k ih =>
    obtain ⟨n, rfl⟩ : ∃ m, n = m + 1 := ⟨n - 1, by omega⟩
    have hhead : ((List.range (k + 1 + 1)).map fun i => start + i * pageSize).reverse =
        (start + (k + 1) * pageSize) ::
          ((List.range (k + 1)).map fun i => start + i * pageSize).reverse := by
      rw [List.range_succ, List.map_append, List.reverse_append]
      rfl
    have hsize : pageSize = 4096 := rfl
    have hstep : (k + 1) * pageSize = k * pageSize + pageSize := Nat.succ_mul k pageSize
    have hprev : sub64 (start + (k + 1) * pageSize) pageSize = start + k * pageSize := by
      rw [sub64_of_le (by omega) hlt]
      omega
    rw [hhead] at hsplit ⊢
    rw [rangeLoop]
    have hsplit' : offeredPages env mem₀ = offered ++ (start + (k + 1) * pageSize) ::
        (((List.range (k + 1)).map fun i => start + i * pageSize).reverse ++ later) := by
      simpa using hsplit
    refine (offerPage_scanned hok h hsplit').bind fun st' hst' => ?_
    rw [if_neg (by omega), hprev]
    have hrest := ih hst' (n := n) (by omega) (by omega) (by simpa using hsplit)
    simpa using hrest

theorem offeredPages_eq (env : BootEnv) (mem : Mem) :
    offeredPages env mem = (bootDescriptors env mem).flatMap Descriptor.offered := by
  unfold offeredPages conventionalRanges
  induction bootDescriptors env mem with
  | nil => rfl
  | cons d ds ih => by_cases hd : d.type = bootMemoryTypeConventional <;> simp [Descriptor.offered, hd, ih]

theorem addDescriptor_scanned (hok : BootMapOk env mem₀) (hd : d ∈ bootDescriptors env mem₀)
    (h : ScanInv env mem₀ st (offered.filter (unreserved env mem₀)))
    (hsplit : offeredPages env mem₀ = offered ++ d.offered ++ later) :
    Scanned env mem₀ (offered ++ d.offered) (addDescriptor env st d) := by
  unfold addDescriptor
  by_cases htype : d.type = bootMemoryTypeConventional
  · have hoffered : d.offered = d.pages.reverse := if_pos htype
    rw [if_neg (by simpa using htype)]
    have hconv : d ∈ conventionalRanges env mem₀ := List.mem_filter.mpr ⟨hd, by simpa using htype⟩
    have hbound := hok.bound d hconv
    have halign := hok.aligned d hconv
    have hstop : d.stop = d.physicalStart + d.numberOfPages * pageSize := rfl
    have hsize : pageSize = 4096 := rfl
    have hfirst : alignUp d.physicalStart pageSize = d.physicalStart :=
      alignUp_of_dvd halign (by omega)
    have hend : wrap64 (d.physicalStart + wrap64 (d.numberOfPages * pageSize)) = d.stop := by
      rw [wrap64_of_lt (n := d.numberOfPages * pageSize) (by omega), wrap64_of_lt (by omega), hstop]
    simp only [addConventionalRange, hfirst, hend, wrap64_of_lt (n := d.physicalStart + pageSize)
      (by omega : d.physicalStart + pageSize < 2 ^ 64)]
    cases hn : d.numberOfPages with
    | zero =>
      rw [if_pos (by rw [hstop, hn]; omega)]
      refine .ok ?_
      simpa [hoffered, Descriptor.pages, hn] using h
    | succ k =>
      have hstep : (k + 1) * pageSize = k * pageSize + pageSize := Nat.succ_mul k pageSize
      rw [hn] at hstop
      have hlast : alignDown (sub64 d.stop pageSize) pageSize = d.physicalStart + k * pageSize := by
        have hsub : sub64 d.stop pageSize = d.physicalStart + k * pageSize := by
          rw [sub64_of_le (by omega) (by omega)]
          omega
        rw [hsub]
        exact alignDown_of_dvd (Nat.dvd_add halign (Nat.dvd_mul_left _ _)) (by omega)
      rw [if_neg (by omega), hlast]
      have hpages : d.pages.reverse =
          ((List.range (k + 1)).map fun i => d.physicalStart + i * pageSize).reverse := by
        rw [Descriptor.pages, hn]
      rw [hoffered, hpages] at hsplit ⊢
      have hfuel : k < 2 ^ 52 := by
        rw [hsize] at hstep hstop hbound
        omega
      exact rangeLoop_scanned hok h hfuel (by omega) hsplit
  · have hoffered : d.offered = [] := if_neg htype
    rw [if_pos htype, hoffered, List.append_nil]
    exact .ok h

theorem lt_bootDescriptorCount {i : ℕ} (hpos : env.memoryDescriptorSize mem₀ ≠ 0) :
    i < bootDescriptorCount env mem₀ ↔
      i * env.memoryDescriptorSize mem₀ + descriptorSize ≤ env.memoryMapSize mem₀ := by
  unfold bootDescriptorCount
  split
  next hsmall => omega
  next hlarge =>
    rw [Nat.lt_succ_iff, Nat.le_div_iff_mul_le (by omega)]
    omega

/-- A descriptor reads as at the start. -/
theorem ScanInv.descriptorAt {pushed : List ℕ} {a : ℕ} (h : ScanInv env mem₀ st pushed)
    (hok : BootMapOk env mem₀) (hlow : env.memoryMap mem₀ ≤ a)
    (hhigh : a + descriptorSize ≤ env.memoryMap mem₀ + env.memoryMapSize mem₀) :
    descriptorAt st.mem a = descriptorAt mem₀ a := by
  have hfield (k w : ℕ) (hk : k + w ≤ descriptorSize) : load st.mem (a + k) w = load mem₀ (a + k) w :=
    load_congr fun x hx hx' => h.reservedByte hok (.inr (.inr ⟨by omega, by omega⟩))
  have htype := hfield 0 4 (by decide)
  simp only [Nat.add_zero] at htype
  simp only [Mm.descriptorAt, htype, hfield 8 8 (by decide), hfield 24 8 (by decide)]

/-- The scan from the descriptor with number `i` on, with `m` still to come. -/
theorem scanLoop_scanned (hok : BootMapOk env mem₀) (hpos : env.memoryDescriptorSize mem₀ ≠ 0)
    {i m : ℕ} (h : ScanInv env mem₀ st (offered.filter (unreserved env mem₀)))
    (hcount : i + m = bootDescriptorCount env mem₀) (hn : m < n)
    (hsplit : offeredPages env mem₀ = offered ++ ((List.range' i m).map fun j =>
      descriptorAt mem₀ (env.memoryMap mem₀ + j * env.memoryDescriptorSize mem₀)).flatMap
        Descriptor.offered) :
    Scanned env mem₀ (offeredPages env mem₀)
      (scanLoop env n st (i * env.memoryDescriptorSize mem₀)) := by
  have hstride := hok.stride
  have hmap := hok.map
  have hsize : pageSize = 4096 := rfl
  -- The offset of the test does not wrap, also after the last descriptor.
  have hoffset (j : ℕ) (hj : j ≤ bootDescriptorCount env mem₀) (hj0 : j ≠ 0) :
      j * env.memoryDescriptorSize mem₀ + descriptorSize < 2 ^ 64 := by
    obtain ⟨k, rfl⟩ : ∃ k, j = k + 1 := ⟨j - 1, by omega⟩
    have hlast := (lt_bootDescriptorCount hpos).mp (Nat.lt_of_succ_le hj)
    rw [Nat.succ_mul]
    omega
  have hwrap : wrap64 (i * env.memoryDescriptorSize mem₀ + descriptorSize) =
      i * env.memoryDescriptorSize mem₀ + descriptorSize := by
    refine wrap64_of_lt ?_
    by_cases hi : i = 0
    · simp only [hi, descriptorSize]
      omega
    · exact hoffset i (by omega) hi
  induction m generalizing i n st offered with
  | zero =>
    obtain ⟨n, rfl⟩ : ∃ k, n = k + 1 := ⟨n - 1, by omega⟩
    have hend : ¬ i * env.memoryDescriptorSize mem₀ + descriptorSize ≤ env.memoryMapSize mem₀ := by
      rw [← lt_bootDescriptorCount hpos]
      omega
    rw [scanLoop, (h.fields hok).2.1, hwrap, if_neg hend]
    have hall : offered = offeredPages env mem₀ := by simpa using hsplit.symm
    exact .ok (hall ▸ h)
  | succ m ih =>
    obtain ⟨n, rfl⟩ : ∃ k, n = k + 1 := ⟨n - 1, by omega⟩
    have hfits : i * env.memoryDescriptorSize mem₀ + descriptorSize ≤ env.memoryMapSize mem₀ :=
      (lt_bootDescriptorCount hpos).mp (by omega)
    obtain ⟨hbase, hlen, -⟩ := h.fields hok
    have haddr : wrap64 (env.memoryMap mem₀ + i * env.memoryDescriptorSize mem₀) =
        env.memoryMap mem₀ + i * env.memoryDescriptorSize mem₀ := wrap64_of_lt (by omega)
    rw [scanLoop, hlen, hwrap, if_pos hfits, hbase, haddr,
      h.descriptorAt hok (Nat.le_add_right _ _) (by omega)]
    rw [List.range'_succ, List.map_cons, List.flatMap_cons, ← List.append_assoc] at hsplit
    have hmem : Mm.descriptorAt mem₀ (env.memoryMap mem₀ + i * env.memoryDescriptorSize mem₀) ∈
        bootDescriptors env mem₀ := List.mem_map.mpr ⟨i, List.mem_range.mpr (by omega), rfl⟩
    refine (addDescriptor_scanned hok hmem h hsplit).bind fun st' hst' => ?_
    have hnext : wrap64 (i * env.memoryDescriptorSize mem₀ + env.memoryDescriptorSize st'.mem) =
        (i + 1) * env.memoryDescriptorSize mem₀ := by
      rw [(hst'.fields hok).2.2, ← Nat.succ_mul]
      refine wrap64_of_lt ?_
      rw [Nat.succ_mul]
      omega
    rw [hnext]
    exact ih hst' (by omega) (by omega) hsplit
      (wrap64_of_lt (hoffset (i + 1) (by omega) (by omega)))

/-- `mm_init` offers all pages of the conventional ranges, unless it panics. -/
theorem mmInitPages_scanned (hok : BootMapOk env mem₀) :
    Scanned env mem₀ (offeredPages env mem₀) (mmInitPages env (bootAllocator mem₀)) ∨
      mmInitPages env (bootAllocator mem₀) = .error (.panic .memoryMapUnavailable) := by
  unfold mmInitPages
  split
  next => exact .inr rfl
  next hinfo =>
    left
    have hpos : env.memoryDescriptorSize mem₀ ≠ 0 := fun h0 => hinfo (.inr (.inr h0))
    have hcount : bootDescriptorCount env mem₀ < 2 ^ 64 := by
      have hstride := hok.stride
      have hlast := lt_bootDescriptorCount (i := bootDescriptorCount env mem₀ - 1) hpos
      have hmul := Nat.le_mul_of_pos_right (bootDescriptorCount env mem₀ - 1)
        (Nat.pos_of_ne_zero hpos)
      omega
    have hstart : ScanInv env mem₀ (bootAllocator mem₀)
        (([] : List ℕ).filter (unreserved env mem₀)) := bootAllocator_scanInv
    have hscan := scanLoop_scanned (i := 0) (n := 2 ^ 64) hok hpos hstart (Nat.zero_add _) hcount
      (by rw [offeredPages_eq, bootDescriptors, List.range_eq_range', List.nil_append])
    rwa [Nat.zero_mul] at hscan

end

end Tianole.Mm
