import Tianole.Mm.TablePages

/-! The physical page allocator, after `mm/page_alloc.c`. The free list is linked through the
first word of each free page. -/
namespace Tianole.Mm
open Memory Word

/-- What the allocator finds at boot: the linker's kernel range, the address of the boot
information, and the page-table root. -/
structure BootEnv where
  kernelStart : ℕ
  kernelEnd : ℕ
  bootInfo : ℕ
  cr3 : ℕ

/-- `sizeof(boot_info_t)`, and the fields that the allocator reads. -/
def bootInfoSize : ℕ := 80

namespace BootEnv

def memoryMap (env : BootEnv) (mem : Mem) : ℕ := load mem (env.bootInfo + 8) 8
def memoryMapSize (env : BootEnv) (mem : Mem) : ℕ := load mem (env.bootInfo + 16) 8
def memoryDescriptorSize (env : BootEnv) (mem : Mem) : ℕ := load mem (env.bootInfo + 32) 8

end BootEnv

def bootMemoryTypeConventional : ℕ := 7

/-- `sizeof(boot_memory_descriptor_t)` -/
def descriptorSize : ℕ := 40

/-- The fields of a memory descriptor that the allocator reads. -/
structure Descriptor where
  type : ℕ
  physicalStart : ℕ
  numberOfPages : ℕ
  deriving DecidableEq, Repr

def descriptorAt (mem : Mem) (a : ℕ) : Descriptor :=
  ⟨load mem a 4, load mem (a + 8) 8, load mem (a + 24) 8⟩

structure PageAllocator where
  mem : Mem
  freePages : ℕ
  freePageCount : ℕ
  record : TableRecord
  /-- The addresses of the link words written so far. -/
  written : List ℕ

def rangesOverlap (start stop reservedStart reservedStop : ℕ) : Bool :=
  start < reservedStop && reservedStart < stop

/-- The three ranges that are reserved whatever the page tables are. -/
def rangeIsReserved (env : BootEnv) (mem : Mem) (page : ℕ) : Bool :=
  let pageEnd := wrap64 (page + pageSize)
  let kernelStart := alignDown env.kernelStart pageSize
  let kernelEnd := alignUp env.kernelEnd pageSize
  let bootInfoStart := alignDown env.bootInfo pageSize
  let bootInfoEnd := alignUp (wrap64 (env.bootInfo + bootInfoSize)) pageSize
  let mapStart := alignDown (env.memoryMap mem) pageSize
  let mapEnd := alignUp (wrap64 (env.memoryMap mem + env.memoryMapSize mem)) pageSize
  rangesOverlap page pageEnd kernelStart kernelEnd ||
    rangesOverlap page pageEnd bootInfoStart bootInfoEnd ||
    rangesOverlap page pageEnd mapStart mapEnd

def pageIsReserved (env : BootEnv) (mem : Mem) (record : TableRecord) (page : ℕ) :
    Except Stop (TableRecord × Bool) :=
  if rangeIsReserved env mem page then .ok (record, true)
  else archPageTableUsesPage mem env.cr3 record page

def addFreePage (st : PageAllocator) (page : ℕ) : PageAllocator :=
  { st with
    mem := store st.mem page 8 st.freePages
    freePages := page
    freePageCount := wrap64 (st.freePageCount + 1)
    written := page :: st.written }

/-- The body of the loop of `add_conventional_range`. -/
def offerPage (env : BootEnv) (st : PageAllocator) (page : ℕ) : Except Stop PageAllocator :=
  (pageIsReserved env st.mem st.record page).map fun r =>
    if r.2 then { st with record := r.1 } else addFreePage { st with record := r.1 } page

/-- The loop of `add_conventional_range`, from `page` down to `first`. -/
def rangeLoop (env : BootEnv) (first : ℕ) : ℕ → PageAllocator → ℕ → Except Stop PageAllocator
  | 0, _, _ => .error .hang
  | n + 1, st, page =>
      (offerPage env st page).bind fun st =>
        if page = first then .ok st else rangeLoop env first n st (sub64 page pageSize)

/-- Both ends of the loop are aligned, so it takes fewer steps than there are pages. -/
def addConventionalRange (env : BootEnv) (st : PageAllocator) (start pages : ℕ) :
    Except Stop PageAllocator :=
  let first := alignUp start pageSize
  let stop := wrap64 (start + wrap64 (pages * pageSize))
  if stop < wrap64 (first + pageSize) then .ok st
  else rangeLoop env first (2 ^ 52) st (alignDown (sub64 stop pageSize) pageSize)

/-- The body of the loop of `init_free_pages`. -/
def addDescriptor (env : BootEnv) (st : PageAllocator) (descriptor : Descriptor) :
    Except Stop PageAllocator :=
  if descriptor.type ≠ bootMemoryTypeConventional then .ok st
  else addConventionalRange env st descriptor.physicalStart descriptor.numberOfPages

/-- The loop of `init_free_pages`, from `offset` on. It ends before an offset recurs, or never. -/
def scanLoop (env : BootEnv) : ℕ → PageAllocator → ℕ → Except Stop PageAllocator
  | 0, _, _ => .error .hang
  | n + 1, st, offset =>
      if wrap64 (offset + descriptorSize) ≤ env.memoryMapSize st.mem then
        (addDescriptor env st (descriptorAt st.mem (wrap64 (env.memoryMap st.mem + offset)))).bind
          fun st => scanLoop env n st (wrap64 (offset + env.memoryDescriptorSize st.mem))
      else .ok st

def initFreePages (env : BootEnv) (st : PageAllocator) : Except Stop PageAllocator :=
  scanLoop env (2 ^ 64) st 0

/-- The allocator without the first free page. -/
def PageAllocator.pop (st : PageAllocator) : PageAllocator :=
  { st with
    freePages := load st.mem st.freePages 8
    freePageCount := sub64 st.freePageCount 1 }

def allocPage (st : PageAllocator) : PageAllocator × ℕ :=
  if st.freePages = 0 then (st, 0) else (st.pop, st.freePages)

def freePage (st : PageAllocator) (page : ℕ) : Except Stop PageAllocator :=
  if page &&& (pageSize - 1) ≠ 0 ∨ page = 0 then .error (.panic .invalidPhysicalPageFree)
  else .ok (addFreePage st page)

/-- `mm_init` up to `init_free_pages`. -/
def mmInitPages (env : BootEnv) (st : PageAllocator) : Except Stop PageAllocator :=
  if env.bootInfo = 0 ∨ env.memoryMap st.mem = 0 ∨ env.memoryDescriptorSize st.mem = 0 then
    .error (.panic .memoryMapUnavailable)
  else initFreePages env { st with freePages := 0, freePageCount := 0 }

/-- The static variables at boot. -/
def bootAllocator (mem : Mem) : PageAllocator := ⟨mem, 0, 0, ⟨[], false⟩, []⟩

end Tianole.Mm
