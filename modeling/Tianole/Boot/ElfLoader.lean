import Mathlib.Data.List.Basic
import Mathlib.Tactic.SplitIfs
import Tianole.Lib.Accesses
import Tianole.Lib.Memory
import Tianole.Lib.Word

/-! The kernel loader of `arch/x86/boot/elf_loader.c`. The file image is part of the memory that
the loader writes to, so that every field is read when the code reads it. -/
namespace Tianole.Boot
open Memory Word

def efiSuccess : ℕ := 0
def efiLoadError : ℕ := 0x8000000000000001

def elfMagic : ℕ := 0x464c457f
def elfClass64 : ℕ := 2
def elfData2Lsb : ℕ := 1
def evCurrent : ℕ := 1
def etExec : ℕ := 2
def emX8664 : ℕ := 62
def ptLoad : ℕ := 1

def ehdrSize : ℕ := 64
def phdrSize : ℕ := 56

/-- The boot services: what `allocate_pages` does with a number of pages and an address, of type
`EFI_ALLOCATE_ADDRESS`, and the status it returns. -/
structure Firmware (φ : Type) where
  allocatePages : φ → ℕ → ℕ → φ × ℕ

/-- The memory and the firmware, and what the loader has done so far: the offsets from
`kernel_image` that it has read, the addresses that it has written, and the address and number of
the pages that it was granted. -/
structure Loader (φ : Type) where
  mem : Mem
  firmware : φ
  reads : List ℕ
  writes : List ℕ
  grants : List (ℕ × ℕ)

section
variable {φ : Type} (fw : Firmware φ) (img size : ℕ)

/-- The file image at `img`, as it is now. -/
def imageAt (mem : Mem) : Mem := fun offset => mem (wrap64 (img + offset))

namespace Loader

/-- The loader before the call: a memory and a firmware. -/
def start (mem : Mem) (firmware : φ) : Loader φ := ⟨mem, firmware, [], [], []⟩

/-- Read a little-endian number from the image. -/
def field (l : Loader φ) (offset width : ℕ) : ℕ := load (imageAt img l.mem) offset width

def read (l : Loader φ) (offset width : ℕ) : Loader φ :=
  { l with reads := l.reads ++ (List.range width).map (offset + ·) }

def memZero (l : Loader φ) (dst n : ℕ) : Loader φ :=
  { l with
    mem := Access.run l.mem ((List.range n).map fun i => .store (wrap64 (dst + i)) 0)
    writes := l.writes ++ (List.range n).map fun i => wrap64 (dst + i) }

/-- The source is given by its offset in the image. -/
def memCopy (l : Loader φ) (dst offset n : ℕ) : Loader φ :=
  { l.read offset n with
    mem := Access.run l.mem
      ((List.range n).map fun i => .copy (wrap64 (dst + i)) (wrap64 (img + (offset + i))))
    writes := l.writes ++ (List.range n).map fun i => wrap64 (dst + i) }

variable {l : Loader φ} {offset width pos n dst : ℕ}

@[simp] theorem field_read : (l.read pos n).field img offset width = l.field img offset width := rfl

@[simp] theorem mem_read : (l.read offset width).mem = l.mem := rfl
@[simp] theorem writes_read : (l.read offset width).writes = l.writes := rfl
@[simp] theorem firmware_read : (l.read offset width).firmware = l.firmware := rfl
@[simp] theorem grants_read : (l.read offset width).grants = l.grants := rfl
@[simp] theorem firmware_memZero : (l.memZero dst n).firmware = l.firmware := rfl
@[simp] theorem grants_memZero : (l.memZero dst n).grants = l.grants := rfl

end Loader

/-! ### Program headers -/

/-- Zero the memory of a segment. The header at `pos` is then read again for the copy: it may have
been written to. -/
def zeroSegment (pos : ℕ) (l : Loader φ) : Loader φ :=
  let l := (l.read (pos + 24) 8).read (pos + 40) 8
  let l := l.memZero (l.field img (pos + 24) 8) (l.field img (pos + 40) 8)
  ((l.read (pos + 24) 8).read (pos + 8) 8).read (pos + 32) 8

/-- Zero the memory of a segment and copy its bytes. -/
def placeSegment (pos : ℕ) (l : Loader φ) : Loader φ :=
  let l := zeroSegment img pos l
  l.memCopy img (l.field img (pos + 24) 8) (l.field img (pos + 8) 8) (l.field img (pos + 32) 8)

/-- Ask for the pages of a segment and fill them. A status is returned if the function ends here. -/
def allocateSegment (pos : ℕ) (l : Loader φ) : Option ℕ × Loader φ :=
  let l := (l.read (pos + 24) 8).read (pos + 40) 8
  let paddr := l.field img (pos + 24) 8
  let pageCount := wrap64 (l.field img (pos + 40) 8 + 0xfff) >>> 12
  let (firmware, status) := fw.allocatePages l.firmware pageCount paddr
  let l := { l with firmware }
  if status ≠ efiSuccess then (some status, l)
  else (none, placeSegment img pos { l with grants := l.grants ++ [(paddr, pageCount)] })

/-- The body of the loop, for the header at `pos`. -/
def loadSegment (pos : ℕ) (l : Loader φ) : Option ℕ × Loader φ :=
  let l := l.read pos 4
  if l.field img pos 4 ≠ ptLoad then (none, l)
  else
    let l := (l.read (pos + 40) 8).read (pos + 32) 8
    if l.field img (pos + 40) 8 < l.field img (pos + 32) 8 then (some efiLoadError, l)
    else
      let l := (l.read (pos + 8) 8).read (pos + 32) 8
      if size < wrap64 (l.field img (pos + 8) 8 + l.field img (pos + 32) 8) then
        (some efiLoadError, l)
      else allocateSegment fw img pos l

/-- The loop over program headers; `none` if it has not ended after the given number of rounds. -/
def segmentLoop (phoff : ℕ) : ℕ → ℕ → Loader φ → Option ℕ × Loader φ
  | 0, _, l => (none, l)
  | n + 1, index, l =>
      let l := l.read 56 2
      if index < l.field img 56 2 then
        match loadSegment fw img size (phoff + phdrSize * index) l with
        | (some status, l) => (some status, l)
        | (none, l) => segmentLoop phoff n (index + 1) l
      else (some efiSuccess, l)

/-! ### The file header -/

/-- The fields that `validate_kernel_elf` checks, in its order, with the values it expects. -/
def headerChecks : List (ℕ × ℕ × ℕ) :=
  [(0, 4, elfMagic), (4, 1, elfClass64), (5, 1, elfData2Lsb), (6, 1, evCurrent), (20, 4, evCurrent),
   (16, 2, etExec), (18, 2, emX8664), (54, 2, phdrSize)]

/-- Fields are read up to the first that is not as expected. -/
def checkFields : List (ℕ × ℕ × ℕ) → Loader φ → Bool × Loader φ
  | [], l => (true, l)
  | (offset, width, expected) :: rest, l =>
      let l := l.read offset width
      if l.field img offset width ≠ expected then (false, l) else checkFields rest l

def validateKernelElf (l : Loader φ) : ℕ × Loader φ :=
  match checkFields img headerChecks l with
  | (true, l) => (efiSuccess, l)
  | (false, l) => (efiLoadError, l)

/-- Checking the header only reads. -/
theorem checkFields_keeps (checks : List (ℕ × ℕ × ℕ)) (l : Loader φ) :
    ∃ reads, (checkFields img checks l).2 = { l with reads := reads } := by
  induction checks generalizing l with
  | nil => exact ⟨l.reads, rfl⟩
  | cons c checks ih =>
    obtain ⟨offset, width, expected⟩ := c
    rw [checkFields]
    split_ifs
    · exact ⟨_, rfl⟩
    · obtain ⟨reads, hreads⟩ := ih (l.read offset width)
      exact ⟨reads, hreads⟩

theorem validateKernelElf_snd (l : Loader φ) :
    (validateKernelElf img l).2 = (checkFields img headerChecks l).2 := by
  unfold validateKernelElf
  split <;> simp [*]

theorem validateKernelElf_keeps (l : Loader φ) :
    ∃ reads, (validateKernelElf img l).2 = { l with reads := reads } := by
  rw [validateKernelElf_snd]
  exact checkFields_keeps img headerChecks l

/-- The status, what is stored in `*entry_out`, and the loader. An index of 16 bits bounds the
number of rounds. -/
def bootLoadKernelElf (l : Loader φ) : Option ℕ × Option ℕ × Loader φ :=
  if size < ehdrSize then (some efiLoadError, none, l)
  else
    let (status, l) := validateKernelElf img l
    if status ≠ efiSuccess then (some status, none, l)
    else
      let l := l.read 32 8
      match segmentLoop fw img size (l.field img 32 8) (2 ^ 16) 0 l with
      | (some status, l) =>
          if status = efiSuccess then (some efiSuccess, some (l.field img 24 8), l.read 24 8)
          else (some status, none, l)
      | (none, l) => (none, none, l)

end

end Tianole.Boot
