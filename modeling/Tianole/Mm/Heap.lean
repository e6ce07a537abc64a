import Tianole.Lib.Memory
import Tianole.Mm.Common

/-! The kernel heap, after `mm/heap.c`. Block headers lie in the memory that the heap manages;
every store to a header field is recorded. -/
namespace Tianole.Mm
open Memory Word

def heapBase : ℕ := 0xffffff2000000000
def heapAlignment : ℕ := 16

/-- `sizeof(struct heap_block)`, and the offsets of its fields. -/
def headerSize : ℕ := 32
def freeOffset : ℕ := 8
def prevOffset : ℕ := 16
def nextOffset : ℕ := 24

def alignUpSize (value alignment : ℕ) : ℕ := alignUp value alignment
def alignUpAddr (value alignment : ℕ) : ℕ := alignUp value alignment

structure Heap where
  mem : Mem
  heapFirst : ℕ
  heapLast : ℕ
  heapEnd : ℕ
  heapReady : Bool
  /-- The virtual pages that the heap has mapped. -/
  mapped : ℕ → Bool
  /-- The header fields written so far, as address and width. -/
  written : List (ℕ × ℕ)

/-- What the page layer answers for one heap page: the result of `alloc_page`, that of
`map_page`, and what the page contains. -/
structure PageOutcome where
  page : ℕ
  mapResult : ℤ
  contents : ℕ → UInt8

namespace Heap

def size (h : Heap) (block : ℕ) : ℕ := load h.mem block 8
def free (h : Heap) (block : ℕ) : ℕ := load h.mem (block + freeOffset) 1
def prev (h : Heap) (block : ℕ) : ℕ := load h.mem (block + prevOffset) 8
def next (h : Heap) (block : ℕ) : ℕ := load h.mem (block + nextOffset) 8

def write (h : Heap) (a width v : ℕ) : Heap :=
  { h with mem := store h.mem a width v, written := (a, width) :: h.written }

def setSize (h : Heap) (block v : ℕ) : Heap := h.write block 8 v
def setFree (h : Heap) (block v : ℕ) : Heap := h.write (block + freeOffset) 1 v
def setPrev (h : Heap) (block v : ℕ) : Heap := h.write (block + prevOffset) 8 v
def setNext (h : Heap) (block v : ℕ) : Heap := h.write (block + nextOffset) 8 v

def setFirst (h : Heap) (block : ℕ) : Heap := { h with heapFirst := block }
def setLast (h : Heap) (block : ℕ) : Heap := { h with heapLast := block }
def setEnd (h : Heap) (a : ℕ) : Heap := { h with heapEnd := a }

end Heap

def blockInsertAfter (h : Heap) (block next : ℕ) : Heap :=
  let h := h.setPrev next block
  let h := h.setNext next (h.next block)
  let h := if h.next block ≠ 0 then h.setPrev (h.next block) next else h.setLast next
  h.setNext block next

def blockMergeNext (h : Heap) (block : ℕ) : Heap :=
  let next := h.next block
  if next = 0 ∨ h.free next = 0 then h
  else
    let h := h.setSize block (wrap64 (h.size block + wrap64 (headerSize + h.size next)))
    let h := h.setNext block (h.next next)
    if h.next next ≠ 0 then h.setPrev (h.next next) block else h.setLast block

def blockSplit (h : Heap) (block size : ℕ) : Heap :=
  if h.size block < wrap64 (wrap64 (size + headerSize) + heapAlignment) then h
  else
    let next := wrap64 (block + headerSize + size)
    let h := h.setSize next (sub64 (sub64 (h.size block) size) headerSize)
    let h := h.setFree next 1
    let h := h.setSize block size
    blockInsertAfter h block next

/-- A fresh page at a virtual address. -/
def Heap.mapPage (h : Heap) (current : ℕ) (contents : ℕ → UInt8) : Heap :=
  { h with
    mem := fun x => if current ≤ x ∧ x < current + pageSize then contents x else h.mem x
    mapped := Function.update h.mapped current true }

/-- The loop of `map_heap_range`, from `current` to `last`. -/
def mapLoop (pages : ℕ → PageOutcome) (last : ℕ) : ℕ → Heap → ℕ → Except Stop (Heap × ℤ)
  | 0, h, current => if current < last then .error .hang else .ok (h, 0)
  | n + 1, h, current =>
      if current < last then
        let answer := pages current
        if answer.page = 0 then .ok (h, -enomem)
        else if answer.mapResult ≠ 0 then .ok (h, answer.mapResult)
        else mapLoop pages last n (h.mapPage current answer.contents)
          (wrap64 (current + pageSize))
      else .ok (h, 0)

def mapHeapRange (h : Heap) (pages : ℕ → PageOutcome) (start bytes : ℕ) :
    Except Stop (Heap × ℤ) :=
  mapLoop pages (wrap64 (start + bytes)) bytes h start

/-- Where a block may now follow a free one: merge it into that. -/
def mergePrev (h : Heap) (block : ℕ) : Heap :=
  if h.prev block ≠ 0 ∧ h.free (h.prev block) ≠ 0 then blockMergeNext h (h.prev block) else h

/-- Link the block of a mapped extension behind the last block. -/
def linkBlock (h : Heap) (block bytes : ℕ) : Heap :=
  let h := h.setEnd (wrap64 (h.heapEnd + bytes))
  let h := h.setSize block (sub64 bytes headerSize)
  let h := h.setFree block 1
  let h := h.setPrev block h.heapLast
  let h := h.setNext block 0
  let h := if h.heapLast ≠ 0 then h.setNext h.heapLast block else h.setFirst block
  h.setLast block

def heapExtend (h : Heap) (pages : ℕ → PageOutcome) (minSize : ℕ) : Except Stop (Heap × ℤ) := do
  let bytes := alignUpSize (wrap64 (minSize + headerSize)) pageSize
  let block := h.heapEnd
  let (h, ret) ← mapHeapRange h pages h.heapEnd bytes
  if ret ≠ 0 then pure (h, ret)
  else pure (mergePrev (linkBlock h block bytes) block, 0)

/-- The loop of `find_free_block`, from `block` on. -/
def findLoop (h : Heap) (size : ℕ) : ℕ → ℕ → Except Stop ℕ
  | 0, block => if block = 0 then .ok 0 else .error .hang
  | n + 1, block =>
      if block = 0 then .ok 0
      else if h.free block ≠ 0 ∧ size ≤ h.size block then .ok block
      else findLoop h size n (h.next block)

/-- There are fewer blocks than addresses. -/
def findFreeBlock (h : Heap) (size : ℕ) : Except Stop ℕ :=
  findLoop h size (2 ^ 64) h.heapFirst

/-- The end of `kmalloc`, with the block that was found. -/
def takeBlock (h : Heap) (block size : ℕ) : Heap × ℕ :=
  if block = 0 then (h, 0)
  else ((blockSplit h block size).setFree block 0, block + headerSize)

def kmalloc (h : Heap) (pages : ℕ → PageOutcome) (size : ℕ) : Except Stop (Heap × ℕ) :=
  if size = 0 then .ok (h, 0)
  else do
    let size := alignUpSize size heapAlignment
    let block ← findFreeBlock h size
    if block = 0 then
      let (h, ret) ← heapExtend h pages size
      if ret ≠ 0 then pure (h, 0)
      else
        let block ← findFreeBlock h size
        pure (takeBlock h block size)
    else pure (takeBlock h block size)

def kfree (h : Heap) (ptr : ℕ) : Heap :=
  if ptr = 0 then h
  else
    let block := ptr - headerSize
    let h := h.setFree block 1
    let h := blockMergeNext h block
    mergePrev h block

def selftestWord : ℕ := 0x54494f4c45484541

/-- The stores of `heap_selftest`; they are no header fields. -/
def Heap.poke (h : Heap) (a width v : ℕ) : Heap := { h with mem := store h.mem a width v }

def heapSelftest (h : Heap) (pages : ℕ → ℕ → PageOutcome) : Except Stop Heap := do
  let (h, first) ← kmalloc h (pages 1) 8
  let (h, second) ← kmalloc h (pages 2) 128
  if first = 0 ∨ second = 0 then .error (.panic .kernelHeapSelftestAllocationFailed)
  else
    let h := h.poke first 8 selftestWord
    let h := h.poke second 1 0x31
    let h := h.poke (second + 127) 1 0x32
    if load h.mem first 8 ≠ selftestWord ∨ load h.mem second 1 ≠ 0x31 ∨
        load h.mem (second + 127) 1 ≠ 0x32 then
      .error (.panic .kernelHeapSelftestMemoryCorrupted)
    else
      let h := kfree h first
      let (h, third) ← kmalloc h (pages 3) 8
      if third = 0 then .error (.panic .kernelHeapSelftestReuseFailed)
      else pure (kfree (kfree h third) second)

/-- `pages` answers for the successive extensions. -/
def heapInit (h : Heap) (pages : ℕ → ℕ → PageOutcome) : Except Stop Heap :=
  if h.heapReady then .ok h
  else do
    let h := h.setEnd (alignUpAddr h.heapEnd pageSize)
    let (h, ret) ← heapExtend h (pages 0) (pageSize - headerSize)
    if ret ≠ 0 then .error (.panic .kernelHeapInitializationFailed)
    else heapSelftest { h with heapReady := true } pages

/-- The static variables before `heap_init`. -/
def bootHeap (mem : Mem) : Heap := ⟨mem, 0, 0, heapBase, false, fun _ => false, []⟩

end Tianole.Mm
