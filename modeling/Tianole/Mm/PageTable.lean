import Tianole.Mm.TablePages

/-! Mapping, unmapping and translating through the active page tables, after
`arch/x86/mm/page_table.c`, and the walk that the processor makes. -/
namespace Tianole.Mm
open Memory

structure PageTables where
  mem : Mem
  cr3 : ℕ
  /-- What the next calls of `alloc_page` return; 0 when there are no more answers. -/
  supply : List ℕ
  /-- The words written so far. -/
  written : List ℕ

def tableIndex (virt shift : ℕ) : ℕ := (virt >>> shift) &&& 0x1ff

def makeTableEntry (table : ℕ) : ℕ := table ||| pagePresent ||| pageWritable

namespace PageTables

/-- `*entry = value` -/
def setWord (st : PageTables) (entry value : ℕ) : PageTables :=
  { st with mem := store st.mem entry 8 value, written := entry :: st.written }

/-- A call of `alloc_page`. -/
def takePage (st : PageTables) : PageTables × ℕ :=
  ({ st with supply := st.supply.tail }, st.supply.headD 0)

def root (st : PageTables) : ℕ := activePml4 st.cr3

end PageTables

def clearPage (st : PageTables) (page : ℕ) : PageTables :=
  (List.range (pageSize / 8)).foldl (fun st index => st.setWord (page + 8 * index) 0) st

/-- The table that a call leads to, or the error that it returns. -/
def ensureNextTable (st : PageTables) (table index : ℕ) : PageTables × Except ℤ ℕ :=
  if isPresent (tableWord st.mem table index) then
    (st, .ok (entryTable (tableWord st.mem table index)))
  else
    let (st, page) := st.takePage
    if page = 0 then (st, .error (-enomem))
    else ((clearPage st page).setWord (table + 8 * index) (makeTableEntry page), .ok page)

/-- Continue with the table of a successful call. -/
def withTable (r : PageTables × Except ℤ ℕ)
    (f : PageTables → ℕ → PageTables × Except ℤ ℕ) : PageTables × Except ℤ ℕ :=
  match r with
  | (st, .ok table) => f st table
  | (st, .error ret) => (st, .error ret)

theorem withTable_assoc (r : PageTables × Except ℤ ℕ)
    (f g : PageTables → ℕ → PageTables × Except ℤ ℕ) :
    withTable (withTable r f) g = withTable r fun st table => withTable (f st table) g := by
  obtain ⟨st, _ | _⟩ := r <;> rfl

/-- `page_entry` with `create`. -/
def createEntry (st : PageTables) (virt : ℕ) : PageTables × Except ℤ ℕ :=
  withTable (ensureNextTable st st.root (tableIndex virt 39)) fun st pdpt =>
    withTable (ensureNextTable st pdpt (tableIndex virt 30)) fun st pd =>
      withTable (ensureNextTable st pd (tableIndex virt 21)) fun st pt =>
        (st, .ok (pt + 8 * tableIndex virt 12))

/-- `page_entry` without `create`. -/
def findEntry (mem : Mem) (pml4 virt : ℕ) : Except ℤ ℕ :=
  if isPresent (tableWord mem pml4 (tableIndex virt 39)) = false then .error (-enoent)
  else
    let pdpt := entryTable (tableWord mem pml4 (tableIndex virt 39))
    if isPresent (tableWord mem pdpt (tableIndex virt 30)) = false then .error (-enoent)
    else
      let pd := entryTable (tableWord mem pdpt (tableIndex virt 30))
      if isPresent (tableWord mem pd (tableIndex virt 21)) = false then .error (-enoent)
      else
        let pt := entryTable (tableWord mem pd (tableIndex virt 21))
        .ok (pt + 8 * tableIndex virt 12)

def mapPage (st : PageTables) (virt phys flags : ℕ) : PageTables × ℤ :=
  if virt &&& (pageSize - 1) ≠ 0 ∨ phys &&& (pageSize - 1) ≠ 0 then (st, -einval)
  else
    match createEntry st virt with
    | (st, .error ret) => (st, ret)
    | (st, .ok entry) =>
        if isPresent (load st.mem entry 8) then (st, -eexist)
        else (st.setWord entry ((phys &&& x86PageMask) ||| flags ||| pagePresent), 0)

def unmapPage (st : PageTables) (virt : ℕ) : PageTables × ℤ :=
  if virt &&& (pageSize - 1) ≠ 0 then (st, -einval)
  else
    match findEntry st.mem st.root virt with
    | .error _ => (st, -enoent)
    | .ok entry =>
        if isPresent (load st.mem entry 8) = false then (st, -enoent) else (st.setWord entry 0, 0)

/-- `out` says whether there is storage for the result. -/
def virtToPhys (st : PageTables) (virt : ℕ) (out : Bool) : Except ℤ ℕ :=
  if out = false then .error (-einval)
  else
    match findEntry st.mem st.root virt with
    | .error _ => .error (-enoent)
    | .ok entry =>
        if isPresent (load st.mem entry 8) = false then .error (-enoent)
        else .ok ((load st.mem entry 8 &&& x86PageMask) ||| (virt &&& (pageSize - 1)))

/-- The new root of `page_tables_init`: a copy of the firmware's at `kernelPml4`. -/
def pageTablesInit (st : PageTables) (kernelPml4 : ℕ) : PageTables :=
  let copied := (List.range x86PageTableEntries).foldl
    (fun st' index => st'.setWord (kernelPml4 + 8 * index) (tableWord st'.mem st.root index)) st
  { copied with cr3 := kernelPml4 }

/-! ### The processor -/

/-- Addresses whose upper bits repeat bit 47. -/
def Canonical (virt : ℕ) : Prop := virt < 2 ^ 47 ∨ 2 ^ 64 - 2 ^ 47 ≤ virt ∧ virt < 2 ^ 64

/-- The frame of a leaf that maps `2 ^ k` bytes, with the offset in it. -/
def leafAddress (k entry virt : ℕ) : ℕ := (entry &&& (2 ^ 52 - 2 ^ k)) ||| (virt % 2 ^ k)

/-- The page walk of the processor: present entries with the page-size flag in the second and
third table are leaves of 1 GiB and 2 MiB. Reserved bits are not looked at. -/
def hardwareWalk (mem : Mem) (pml4 virt : ℕ) : Option ℕ :=
  let e4 := tableWord mem pml4 (tableIndex virt 39)
  if isPresent e4 = false then none
  else
    let e3 := tableWord mem (entryTable e4) (tableIndex virt 30)
    if isPresent e3 = false then none
    else if isLarge e3 then some (leafAddress 30 e3 virt)
    else
      let e2 := tableWord mem (entryTable e3) (tableIndex virt 21)
      if isPresent e2 = false then none
      else if isLarge e2 then some (leafAddress 21 e2 virt)
      else
        let e1 := tableWord mem (entryTable e2) (tableIndex virt 12)
        if isPresent e1 = false then none else some (leafAddress 12 e1 virt)

/-- The table pages that the walk visits. -/
def walkTables (mem : Mem) (pml4 virt : ℕ) : List ℕ :=
  let e4 := tableWord mem pml4 (tableIndex virt 39)
  let e3 := tableWord mem (entryTable e4) (tableIndex virt 30)
  let e2 := tableWord mem (entryTable e3) (tableIndex virt 21)
  pml4 :: if isPresent e4 = false then []
    else entryTable e4 :: if isPresent e3 = false ∨ isLarge e3 = true then []
      else entryTable e3 :: if isPresent e2 = false ∨ isLarge e2 = true then []
        else [entryTable e2]

end Tianole.Mm
