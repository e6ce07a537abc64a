import Tianole.Boot.ElfLoader

/-! What a successful call of the kernel loader leaves in memory, when the firmware grants only
pages that nobody holds. -/
namespace Tianole.Boot
open Memory Word

def efiPageSize : ℕ := 4096

/-! ### The file -/

/-- A program header, as far as the loader reads it. -/
structure Phdr where
  type : ℕ
  offset : ℕ
  paddr : ℕ
  filesz : ℕ
  memsz : ℕ
  deriving DecidableEq, Repr

def phdrAt (file : Mem) (pos : ℕ) : Phdr :=
  ⟨load file pos 4, load file (pos + 8) 8, load file (pos + 24) 8, load file (pos + 32) 8,
    load file (pos + 40) 8⟩

/-- The offset of a program header in the file. -/
def phdrPos (file : Mem) (index : ℕ) : ℕ := load file 32 8 + phdrSize * index

/-- The first `n` program headers. -/
def phdrs (file : Mem) (n : ℕ) : List Phdr := (List.range n).map fun i => phdrAt file (phdrPos file i)

def phnum (file : Mem) : ℕ := load file 56 2

/-- The loadable ones among the first `n` program headers. -/
def loadable (file : Mem) (n : ℕ) : List Phdr := (phdrs file n).filter fun h => h.type = ptLoad

namespace Phdr

/-- The address belongs to the segment in memory. -/
def Covers (h : Phdr) (address : ℕ) : Prop := h.paddr ≤ address ∧ address < h.paddr + h.memsz

/-- What the segment holds at a distance from its start: bytes of the file, then zeros. -/
def content (h : Phdr) (file : Mem) (i : ℕ) : UInt8 := if i < h.filesz then file (h.offset + i) else 0

/-- The pages of the segment: an address and a number of pages. -/
def grant (h : Phdr) : ℕ × ℕ := (h.paddr, (h.memsz + 0xfff) / efiPageSize)

/-- The bytes of the segment lie in the file, its memory is page-aligned, and nothing wraps. -/
structure Placed (size : ℕ) (h : Phdr) : Prop where
  inside : h.offset + h.filesz ≤ size
  aligned : h.paddr % efiPageSize = 0
  pages : h.memsz + 4095 < 2 ^ 64
  bound : h.paddr + h.memsz < 2 ^ 64

end Phdr

/-- The numbers of the pages in a grant. -/
def grantPages (g : ℕ × ℕ) : List ℕ := List.range' (g.1 / efiPageSize) g.2

theorem Phdr.Covers.mem_grantPages {h : Phdr} {size a : ℕ} (hc : h.Covers a) (hp : h.Placed size) :
    a / efiPageSize ∈ grantPages h.grant := by
  obtain ⟨hle, hlt⟩ := hc
  have haligned : h.paddr % 4096 = 0 := hp.aligned
  simp only [grantPages, Phdr.grant, List.mem_range'_1, efiPageSize]
  omega

/-! ### The firmware -/

/-- Allocation succeeds only for pages that nobody holds, and then they are held; no page is given
up. -/
structure Firmware.Exclusive {φ : Type} (fw : Firmware φ) (held : φ → ℕ → Prop) : Prop where
  fresh : ∀ {f count address}, (fw.allocatePages f count address).2 = efiSuccess →
    ∀ p ∈ grantPages (address, count), ¬ held f p ∧ held (fw.allocatePages f count address).1 p
  keeps : ∀ {f count address p}, held f p → held (fw.allocatePages f count address).1 p

section
variable {φ : Type} {img : ℕ} {l : Loader φ} {a : ℕ}

/-! ### Memory -/

theorem memZero_mem {dst n : ℕ} (h : dst + n < 2 ^ 64) :
    (l.memZero dst n).mem a = if dst ≤ a ∧ a < dst + n then 0 else l.mem a := by
  have hplain : (List.range n).map (fun i => Access.store (wrap64 (dst + i)) (0 : UInt8)) =
      (List.range n).map fun i => .store (dst + i) 0 :=
    List.map_congr_left fun i hi => by rw [wrap64_of_lt (by have := List.mem_range.mp hi; omega)]
  rw [Loader.memZero, hplain]
  split_ifs with hin
  · refine Access.run_stores ?_ ⟨.store a 0, ?_, rfl⟩
    · simp only [List.mem_map, forall_exists_index, and_imp]
      rintro _ i _ rfl
      exact ⟨_, rfl⟩
    · exact List.mem_map.mpr ⟨a - dst, List.mem_range.mpr (by omega), by congr 1; omega⟩
  · refine Access.run_of_forall_ne ?_
    simp only [List.mem_map, List.mem_range, forall_exists_index, and_imp, forall_apply_eq_imp_iff₂,
      Access.target]
    omega

/-- A copy from a part of the image that does not overlap its target. -/
theorem memCopy_mem {dst offset n : ℕ} (h : dst + n < 2 ^ 64)
    (hsep : ∀ i < n, ¬(dst ≤ wrap64 (img + (offset + i)) ∧ wrap64 (img + (offset + i)) < dst + n)) :
    (l.memCopy img dst offset n).mem a =
      if dst ≤ a ∧ a < dst + n then imageAt img l.mem (offset + (a - dst)) else l.mem a := by
  have hplain : (List.range n).map
        (fun i => Access.copy (wrap64 (dst + i)) (wrap64 (img + (offset + i)))) =
      (List.range n).map fun i => (.copy (dst + i) (wrap64 (img + (offset + i))) : Access UInt8) :=
    List.map_congr_left fun i hi => by
      rw [wrap64_of_lt (n := dst + i) (by have := List.mem_range.mp hi; omega)]
  rw [Loader.memCopy, hplain]
  split_ifs with hin
  · obtain ⟨i, rfl⟩ := Nat.exists_eq_add_of_le hin.1
    rw [Nat.add_sub_cancel_left]
    refine Access.run_copies (fun x _ y _ => Nat.add_left_cancel) ?_ (by omega)
    exact fun x hx y hy he => hsep x hx (by omega)
  · refine Access.run_of_forall_ne ?_
    simp only [List.mem_map, List.mem_range, forall_exists_index, and_imp, forall_apply_eq_imp_iff₂,
      Access.target]
    omega

/-- The image has the bytes of the file. -/
def Holds (img size : ℕ) (file mem : Mem) : Prop := ∀ o < size, imageAt img mem o = file o

variable {size : ℕ} {file : Mem}

theorem Holds.field (hh : Holds img size file l.mem) {offset width : ℕ}
    (h : offset + width ≤ size) : l.field img offset width = load file offset width :=
  load_congr fun x _ hx => hh x (by omega)

/-- A segment that shares no address with the image. -/
def Phdr.Apart (img size : ℕ) (h : Phdr) : Prop := ∀ o < size, ¬ h.Covers (wrap64 (img + o))

/-- A change of memory in a segment apart from the image keeps the file there. -/
theorem Holds.of_apart {mem' : Mem} {h : Phdr} (hh : Holds img size file l.mem)
    (hapart : h.Apart img size) (hother : ∀ a, ¬ h.Covers a → mem' a = l.mem a) :
    Holds img size file mem' :=
  fun o ho => (hother _ (hapart o ho)).trans (hh o ho)

/-! ### One segment -/

/-- The segment has been written, and nothing else. -/
structure Phdr.Written (h : Phdr) (file : Mem) (l l' : Loader φ) : Prop where
  inside : ∀ i < h.memsz, l'.mem (h.paddr + i) = h.content file i
  other : ∀ a, ¬ h.Covers a → l'.mem a = l.mem a
  writes : ∀ a ∈ l'.writes, a ∈ l.writes ∨ h.Covers a
  firmware : l'.firmware = l.firmware
  grants : l'.grants = l.grants

theorem mem_targets {h : Phdr} (hbound : h.paddr + h.memsz < 2 ^ 64) {n : ℕ} (hn : n ≤ h.memsz)
    (ha : a ∈ (List.range n).map fun i => wrap64 (h.paddr + i)) : h.Covers a := by
  obtain ⟨i, hi, rfl⟩ := List.mem_map.mp ha
  have hi : i < n := List.mem_range.mp hi
  rw [wrap64_of_lt (by omega)]
  exact ⟨by omega, by omega⟩

variable {pos : ℕ}

theorem zeroSegment_mem (hh : Holds img size file l.mem) (hpos : pos + phdrSize ≤ size)
    (hp : (phdrAt file pos).Placed size) :
    (∀ a, (phdrAt file pos).Covers a → (zeroSegment img pos l).mem a = 0) ∧
    (∀ a, ¬ (phdrAt file pos).Covers a → (zeroSegment img pos l).mem a = l.mem a) ∧
    (zeroSegment img pos l).writes = l.writes ++
      (List.range (phdrAt file pos).memsz).map fun i => wrap64 ((phdrAt file pos).paddr + i) := by
  have hsize : pos + 56 ≤ size := hpos
  have hpaddr : l.field img (pos + 24) 8 = (phdrAt file pos).paddr := hh.field (by omega)
  have hmemsz : l.field img (pos + 40) 8 = (phdrAt file pos).memsz := hh.field (by omega)
  simp only [zeroSegment, Loader.mem_read, Loader.writes_read, Loader.field_read, hpaddr, hmemsz]
  generalize phdrAt file pos = h at hp
  refine ⟨fun a ha => ?_, fun a ha => ?_, ?_⟩
  · exact (memZero_mem hp.bound).trans (if_pos ha)
  · exact (memZero_mem hp.bound).trans (if_neg ha)
  · rfl

/-- Zeros in the whole segment and then a copy of the file's bytes. -/
theorem copy_written {h : Phdr} {z : Loader φ} (hz : Holds img size file z.mem)
    (hp : h.Placed size) (hsizes : h.filesz ≤ h.memsz) (hapart : h.Apart img size)
    (hzero : ∀ a, h.Covers a → z.mem a = 0) (hkept : ∀ a, ¬ h.Covers a → z.mem a = l.mem a)
    (hwrites : z.writes = l.writes ++ (List.range h.memsz).map fun i => wrap64 (h.paddr + i))
    (hfirmware : z.firmware = l.firmware) (hgrants : z.grants = l.grants) :
    h.Written file l (z.memCopy img h.paddr h.offset h.filesz) := by
  have hbound := hp.bound
  have hinside := hp.inside
  have hcopy (a : ℕ) : (z.memCopy img h.paddr h.offset h.filesz).mem a =
      if h.paddr ≤ a ∧ a < h.paddr + h.filesz then imageAt img z.mem (h.offset + (a - h.paddr))
      else z.mem a :=
    memCopy_mem (by omega) fun i hi hcovered =>
      hapart (h.offset + i) (by omega) ⟨hcovered.1, by omega⟩
  refine ⟨fun i hi => ?_, fun a ha => ?_, fun a ha => ?_, hfirmware, hgrants⟩
  · refine (hcopy _).trans ?_
    unfold Phdr.content
    by_cases hfile : i < h.filesz
    · rw [if_pos (by omega), if_pos hfile, Nat.add_sub_cancel_left]
      exact hz _ (by omega)
    · rw [if_neg (by omega), if_neg hfile]
      exact hzero _ ⟨by omega, by omega⟩
  · have hout : ¬(h.paddr ≤ a ∧ a < h.paddr + h.filesz) := fun hin => ha ⟨hin.1, by omega⟩
    rw [← hkept a ha]
    exact (hcopy a).trans (if_neg hout)
  · have hsplit : a ∈ z.writes ++ (List.range h.filesz).map fun i => wrap64 (h.paddr + i) := ha
    rw [hwrites, List.mem_append, List.mem_append] at hsplit
    rcases hsplit with (hold | hzeroed) | hcopied
    · exact .inl hold
    · exact .inr (mem_targets hbound (Nat.le_refl _) hzeroed)
    · exact .inr (mem_targets hbound hsizes hcopied)

theorem placeSegment_written (hh : Holds img size file l.mem) (hpos : pos + phdrSize ≤ size)
    (hp : (phdrAt file pos).Placed size)
    (hsizes : (phdrAt file pos).filesz ≤ (phdrAt file pos).memsz)
    (hapart : (phdrAt file pos).Apart img size) :
    (phdrAt file pos).Written file l (placeSegment img pos l) := by
  have hsize : pos + 56 ≤ size := hpos
  obtain ⟨hzero, hkept, hwrites⟩ := zeroSegment_mem hh hpos hp
  have hfirmware : (zeroSegment img pos l).firmware = l.firmware := by simp [zeroSegment]
  have hgrants : (zeroSegment img pos l).grants = l.grants := by simp [zeroSegment]
  unfold placeSegment
  generalize zeroSegment img pos l = z at hzero hkept hwrites hfirmware hgrants
  -- The header is read again, and is as it was.
  have hz : Holds img size file z.mem := hh.of_apart hapart hkept
  have hpaddr : z.field img (pos + 24) 8 = (phdrAt file pos).paddr := hz.field (by omega)
  have hoffset : z.field img (pos + 8) 8 = (phdrAt file pos).offset := hz.field (by omega)
  have hfilesz : z.field img (pos + 32) 8 = (phdrAt file pos).filesz := hz.field (by omega)
  dsimp only
  rw [hpaddr, hoffset, hfilesz]
  generalize phdrAt file pos = h at *
  exact copy_written hz hp hsizes hapart hzero hkept hwrites hfirmware hgrants

/-! ### All segments -/

/-- The firmware after the pages of some segments have been asked for. -/
def allocateAll (fw : Firmware φ) (f : φ) (hs : List Phdr) : φ :=
  hs.foldl (fun f h => (fw.allocatePages f h.grant.2 h.grant.1).1) f

/-- The segments in `done` have been loaded from the file in `mem`, each into pages of its own. -/
structure Loaded (fw : Firmware φ) (held : φ → ℕ → Prop) (img size : ℕ) (mem : Mem) (f : φ)
    (done : List Phdr) (l : Loader φ) : Prop where
  sizes : ∀ h ∈ done, h.filesz ≤ h.memsz
  content : ∀ h ∈ done, ∀ i < h.memsz, l.mem (h.paddr + i) = h.content (imageAt img mem) i
  other : ∀ a, (∀ h ∈ done, ¬ h.Covers a) → l.mem a = mem a
  image : Holds img size (imageAt img mem) l.mem
  writes : ∀ a ∈ l.writes, ∃ h ∈ done, h.Covers a
  grants : l.grants = done.map Phdr.grant
  firmware : l.firmware = allocateAll fw f done
  imageHeld : ∀ o < size, held l.firmware (wrap64 (img + o) / efiPageSize)
  segmentHeld : ∀ h ∈ done, ∀ a, h.Covers a → held l.firmware (a / efiPageSize)

variable {fw : Firmware φ} {held : φ → ℕ → Prop} {mem : Mem} {f : φ} {done : List Phdr} {h : Phdr}
  {l' : Loader φ}

/-- What has been read does not matter. -/
theorem Loaded.congr (hl : Loaded fw held img size mem f done l) (hmem : l'.mem = l.mem)
    (hwrites : l'.writes = l.writes) (hgrants : l'.grants = l.grants)
    (hfirmware : l'.firmware = l.firmware) : Loaded fw held img size mem f done l' := by
  obtain ⟨mem', firmware', reads', writes', grants'⟩ := l'
  cases hmem
  cases hwrites
  cases hgrants
  cases hfirmware
  exact ⟨hl.sizes, hl.content, hl.other, hl.image, hl.writes, hl.grants, hl.firmware, hl.imageHeld,
    hl.segmentHeld⟩

/-- The pages of a segment are new when they are granted: no address of it was held before. -/
theorem Phdr.Covers.fresh {hd : Phdr} {a : ℕ} (hc : hd.Covers a) (hp : hd.Placed size)
    (hfw : fw.Exclusive held)
    (hstatus : (fw.allocatePages f hd.grant.2 hd.grant.1).2 = efiSuccess) :
    ¬ held f (a / efiPageSize) ∧
      held (fw.allocatePages f hd.grant.2 hd.grant.1).1 (a / efiPageSize) :=
  hfw.fresh hstatus _ (hc.mem_grantPages hp)

/-- A granted segment is loaded; the earlier ones and the image stay as they are. -/
theorem Loaded.written (hl : Loaded fw held img size mem f done l) (hfw : fw.Exclusive held)
    (hp : h.Placed size) (hsizes : h.filesz ≤ h.memsz)
    (hstatus : (fw.allocatePages l.firmware h.grant.2 h.grant.1).2 = efiSuccess)
    (hw : h.Written (imageAt img mem) { l with
      firmware := (fw.allocatePages l.firmware h.grant.2 h.grant.1).1
      grants := l.grants ++ [h.grant] } l') :
    Loaded fw held img size mem f (done ++ [h]) l' := by
  have hfirmware := hw.firmware
  have hgrants := hw.grants
  dsimp only at hfirmware hgrants
  have hnew {a : ℕ} (hc : h.Covers a) := hc.fresh hp hfw hstatus
  have hapart : h.Apart img size := fun o ho hc => (hnew hc).1 (hl.imageHeld o ho)
  have hkeeps {p : ℕ} (hheld : held l.firmware p) : held l'.firmware p :=
    hfirmware ▸ hfw.keeps hheld
  constructor
  · exact List.forall_mem_append.mpr ⟨hl.sizes, List.forall_mem_singleton.mpr hsizes⟩
  · refine List.forall_mem_append.mpr ⟨fun d hd i hi => ?_, List.forall_mem_singleton.mpr hw.inside⟩
    have hold : ¬ h.Covers (d.paddr + i) := fun hc =>
      (hnew hc).1 (hl.segmentHeld d hd _ ⟨by omega, by omega⟩)
    exact (hw.other _ hold).trans (hl.content d hd i hi)
  · intro a ha
    obtain ⟨hdone, hlast⟩ := List.forall_mem_append.mp ha
    exact (hw.other a (hlast h (by simp))).trans (hl.other a hdone)
  · exact hl.image.of_apart hapart hw.other
  · intro a ha
    rcases hw.writes a ha with hold | hc
    · obtain ⟨d, hd, hcovers⟩ := hl.writes a hold
      exact ⟨d, List.mem_append_left _ hd, hcovers⟩
    · exact ⟨h, by simp, hc⟩
  · rw [hgrants, hl.grants, List.map_append, List.map_singleton]
  · rw [hfirmware, hl.firmware, allocateAll, allocateAll, List.foldl_append]
    rfl
  · exact fun o ho => hkeeps (hl.imageHeld o ho)
  · refine List.forall_mem_append.mpr ⟨fun d hd a hc => hkeeps (hl.segmentHeld d hd a hc), ?_⟩
    exact List.forall_mem_singleton.mpr fun a hc => hfirmware ▸ (hnew hc).2

/-- A segment whose pages are granted is loaded; otherwise the call ends with an error. -/
theorem Loaded.allocateSegment (hl : Loaded fw held img size mem f done l)
    (hfw : fw.Exclusive held) (hpos : pos + phdrSize ≤ size)
    (hp : (phdrAt (imageAt img mem) pos).Placed size)
    (hsizes : (phdrAt (imageAt img mem) pos).filesz ≤ (phdrAt (imageAt img mem) pos).memsz) :
    (∃ status l', allocateSegment fw img pos l = (some status, l') ∧ status ≠ efiSuccess) ∨
    ∃ l', allocateSegment fw img pos l = (none, l') ∧
      Loaded fw held img size mem f (done ++ [phdrAt (imageAt img mem) pos]) l' := by
  have hsize : pos + 56 ≤ size := hpos
  have hpaddr : l.field img (pos + 24) 8 = (phdrAt (imageAt img mem) pos).grant.1 :=
    hl.image.field (by omega)
  have hmemsz : l.field img (pos + 40) 8 = (phdrAt (imageAt img mem) pos).memsz :=
    hl.image.field (by omega)
  have hcount : wrap64 ((phdrAt (imageAt img mem) pos).memsz + 0xfff) >>> 12 =
      (phdrAt (imageAt img mem) pos).grant.2 := by
    rw [wrap64_of_lt hp.pages, Nat.shiftRight_eq_div_pow]
    rfl
  unfold Boot.allocateSegment
  simp only [Loader.field_read, Loader.firmware_read, hpaddr, hmemsz, hcount]
  split_ifs with hstatus
  · exact .inl ⟨_, _, rfl, hstatus⟩
  · refine .inr ⟨_, rfl, ?_⟩
    have hsuccess := not_not.mp hstatus
    have hread : Loaded fw held img size mem f done ((l.read (pos + 24) 8).read (pos + 40) 8) :=
      hl.congr rfl rfl rfl rfl
    refine hread.written hfw hp hsizes hsuccess (placeSegment_written hread.image hpos hp hsizes ?_)
    exact fun o ho hc => (hc.fresh hp hfw hsuccess).1 (hl.imageHeld o ho)

/-- A program header adds its segment if it is loadable and nothing if it is not. -/
theorem Loaded.loadSegment (hl : Loaded fw held img size mem f done l) (hfw : fw.Exclusive held)
    (hpos : pos + phdrSize ≤ size)
    (hp : (phdrAt (imageAt img mem) pos).type = ptLoad →
      (phdrAt (imageAt img mem) pos).Placed size) :
    (∃ status l', loadSegment fw img size pos l = (some status, l') ∧ status ≠ efiSuccess) ∨
    ∃ l', loadSegment fw img size pos l = (none, l') ∧ Loaded fw held img size mem f
      (done ++ [phdrAt (imageAt img mem) pos].filter fun h => h.type = ptLoad) l' := by
  have hsize : pos + 56 ≤ size := hpos
  have htype : l.field img pos 4 = (phdrAt (imageAt img mem) pos).type :=
    hl.image.field (by omega)
  have hfilesz : l.field img (pos + 32) 8 = (phdrAt (imageAt img mem) pos).filesz :=
    hl.image.field (by omega)
  have hmemsz : l.field img (pos + 40) 8 = (phdrAt (imageAt img mem) pos).memsz :=
    hl.image.field (by omega)
  unfold Boot.loadSegment
  simp only [Loader.field_read, htype, hfilesz, hmemsz]
  split_ifs with hload hsizes hend
  · refine .inr ⟨_, rfl, ?_⟩
    rw [List.filter_singleton, decide_eq_false hload, cond_false, List.append_nil]
    exact hl.congr rfl rfl rfl rfl
  · exact .inl ⟨_, _, rfl, by decide⟩
  · exact .inl ⟨_, _, rfl, by decide⟩
  · rw [List.filter_singleton, decide_eq_true (not_not.mp hload)]
    refine Loaded.allocateSegment (hl.congr rfl rfl rfl rfl) hfw hpos (hp (not_not.mp hload)) ?_
    exact Nat.not_lt.mp hsizes

/-- The table and every loadable segment lie in the file, and no sum of theirs wraps. -/
structure WellPlaced (file : Mem) (size : ℕ) : Prop where
  table : phdrPos file (phnum file) ≤ size
  segments : ∀ h ∈ loadable file (phnum file), h.Placed size

theorem loadable_succ (n : ℕ) : loadable file (n + 1) =
    loadable file n ++ [phdrAt file (phdrPos file n)].filter fun h => h.type = ptLoad := by
  rw [loadable, phdrs, List.range_succ, List.map_append, List.filter_append]
  rfl

theorem WellPlaced.header (hfile : WellPlaced file size) {i : ℕ} (hi : i < phnum file) :
    phdrPos file i + phdrSize ≤ size ∧ ((phdrAt file (phdrPos file i)).type = ptLoad →
      (phdrAt file (phdrPos file i)).Placed size) := by
  have htable := hfile.table
  unfold phdrPos phdrSize at *
  refine ⟨by omega, fun hload => hfile.segments _ ?_⟩
  exact List.mem_filter.mpr ⟨List.mem_map.mpr ⟨i, List.mem_range.mpr hi, rfl⟩, by simpa using hload⟩

/-- The loop: from the segments of the first headers to those of all headers. -/
theorem Loaded.segmentLoop (hfw : fw.Exclusive held) (hfile : WellPlaced (imageAt img mem) size)
    (hsize : ehdrSize ≤ size) {n index : ℕ} (hindex : index ≤ phnum (imageAt img mem))
    (hl : Loaded fw held img size mem f (loadable (imageAt img mem) index) l)
    (hend : segmentLoop fw img size (load (imageAt img mem) 32 8) n index l =
      (some efiSuccess, l')) :
    Loaded fw held img size mem f
      (loadable (imageAt img mem) (phnum (imageAt img mem))) l' := by
  induction n generalizing index l with
  | zero => cases hend
  | succ n ih =>
    have hread : Loaded fw held img size mem f (loadable (imageAt img mem) index) (l.read 56 2) :=
      hl.congr rfl rfl rfl rfl
    have hphnum : l.field img 56 2 = phnum (imageAt img mem) :=
      hl.image.field (Nat.le_trans (by decide) hsize)
    rw [Boot.segmentLoop] at hend
    simp only [Loader.field_read, hphnum] at hend
    split_ifs at hend with hmore
    · obtain ⟨hpos, hp⟩ := hfile.header hmore
      rcases hread.loadSegment hfw hpos hp with ⟨status, l₁, hstep, hstatus⟩ | ⟨l₁, hstep, hl₁⟩
      · rw [← phdrPos, hstep] at hend
        exact absurd (Option.some.inj (congrArg Prod.fst hend)) hstatus
      · rw [← phdrPos, hstep] at hend
        exact ih hmore (loadable_succ _ ▸ hl₁) hend
    · obtain rfl : index = phnum (imageAt img mem) := by omega
      obtain rfl : l.read 56 2 = l' := congrArg Prod.snd hend
      exact hread

theorem Loaded.start (hheld : ∀ o < size, held f (wrap64 (img + o) / efiPageSize)) :
    Loaded fw held img size mem f [] (.start mem f) := by
  refine ⟨nofun, nofun, fun a _ => rfl, fun o _ => rfl, nofun, rfl, rfl, hheld, nofun⟩

theorem Loaded.bootLoadKernelElf (hfw : fw.Exclusive held)
    (hheld : ∀ o < size, held f (wrap64 (img + o) / efiPageSize))
    (hfile : WellPlaced (imageAt img mem) size) {entry : Option ℕ}
    (hend : bootLoadKernelElf fw img size (.start mem f) = (some efiSuccess, entry, l')) :
    Loaded fw held img size mem f (loadable (imageAt img mem) (phnum (imageAt img mem))) l' ∧
      entry = some (load (imageAt img mem) 24 8) := by
  unfold Boot.bootLoadKernelElf at hend
  split_ifs at hend with hsmall
  · exact absurd (Option.some.inj (congrArg Prod.fst hend)) (by decide)
  have hsize : ehdrSize ≤ size := Nat.not_lt.mp hsmall
  obtain ⟨reads, hkeeps⟩ := validateKernelElf_keeps img (Loader.start mem f)
  generalize Boot.validateKernelElf img (Loader.start mem f) = checked at hend hkeeps
  obtain ⟨status, l₁⟩ := checked
  dsimp only at hend hkeeps
  split_ifs at hend with hstatus
  · exact absurd (Option.some.inj (congrArg Prod.fst hend)) hstatus
  have hstart : Loaded fw held img size mem f (loadable (imageAt img mem) 0) (l₁.read 32 8) := by
    subst hkeeps
    exact (Loaded.start hheld).congr rfl rfl rfl rfl
  have hphoff : (l₁.read 32 8).field img 32 8 = load (imageAt img mem) 32 8 :=
    hstart.image.field (Nat.le_trans (by decide) hsize)
  rw [hphoff] at hend
  generalize hloop : Boot.segmentLoop fw img size _ (2 ^ 16) 0 (l₁.read 32 8) = looped at hend
  obtain ⟨_ | status, l₂⟩ := looped
  · cases hend
  dsimp only at hend
  split_ifs at hend with hsuccess
  · subst hsuccess
    have hloaded := Loaded.segmentLoop hfw hfile hsize (Nat.zero_le _) hstart hloop
    have hentry := hloaded.image.field (Nat.le_trans (show 24 + 8 ≤ ehdrSize by decide) hsize)
    obtain ⟨rfl, rfl⟩ := Prod.mk.inj (Prod.mk.inj hend).2
    exact ⟨hloaded.congr rfl rfl rfl rfl, congrArg some hentry⟩
  · exact absurd (Option.some.inj (congrArg Prod.fst hend)) hsuccess

end

/-- A file whose table and segments lie inside it, loaded by a firmware that grants only pages that
nobody holds, the file's own being held: every segment is in memory, with the bytes of the file
followed by zeros; every byte written is in a page granted by the call; the rest of memory is as it
was, and so is the file. Only the loadable headers count: the grants are theirs, in their order. -/
theorem elf_load_installs_image {φ : Type} {fw : Firmware φ} {held : φ → ℕ → Prop}
    (hfw : fw.Exclusive held) {img size : ℕ} {mem : Mem} {firmware : φ}
    (hheld : ∀ o < size, held firmware (wrap64 (img + o) / efiPageSize))
    (hfile : WellPlaced (imageAt img mem) size) {entry : Option ℕ} {l : Loader φ}
    (hend : bootLoadKernelElf fw img size (.start mem firmware) = (some efiSuccess, entry, l)) :
    let file := imageAt img mem
    let segments := loadable file (phnum file)
    (∀ h ∈ segments, (∀ i < h.filesz, l.mem (h.paddr + i) = file (h.offset + i)) ∧
      ∀ i, h.filesz ≤ i → i < h.memsz → l.mem (h.paddr + i) = 0) ∧
    (∀ a ∈ l.writes, ∃ g ∈ l.grants, a / efiPageSize ∈ grantPages g) ∧
    (∀ a, (∀ h ∈ segments, ¬ h.Covers a) → l.mem a = mem a) ∧
    (∀ o < size, imageAt img l.mem o = file o) ∧
    l.grants = segments.map Phdr.grant ∧
    l.firmware = allocateAll fw firmware segments ∧
    entry = some (load file 24 8) := by
  obtain ⟨hl, hentry⟩ := Loaded.bootLoadKernelElf hfw hheld hfile hend
  intro file segments
  refine ⟨fun h hh => ⟨fun i hi => ?_, fun i hi hi' => ?_⟩, fun a ha => ?_, hl.other, hl.image,
    hl.grants, hl.firmware, hentry⟩
  · rw [hl.content h hh i (Nat.lt_of_lt_of_le hi (hl.sizes h hh)), Phdr.content, if_pos hi]
  · rw [hl.content h hh i hi', Phdr.content, if_neg (Nat.not_lt.mpr hi)]
  · obtain ⟨h, hh, hc⟩ := hl.writes a ha
    rw [hl.grants]
    exact ⟨h.grant, List.mem_map_of_mem hh, hc.mem_grantPages (hfile.segments h hh)⟩

/-- A firmware that keeps a list of the pages held. -/
def listFirmware : Firmware (List ℕ) where
  allocatePages held count address :=
    if ∃ p ∈ grantPages (address, count), p ∈ held then (held, efiLoadError)
    else (held ++ grantPages (address, count), efiSuccess)

theorem listFirmware_exclusive : listFirmware.Exclusive fun held p => p ∈ held := by
  constructor
  · intro held count address hstatus p hp
    dsimp only [listFirmware] at hstatus ⊢
    split_ifs at hstatus ⊢ with htaken
    · exact absurd hstatus (show efiLoadError ≠ efiSuccess by decide)
    · exact ⟨fun hheld => htaken ⟨p, hp, hheld⟩, List.mem_append_right _ hp⟩
  · intro held count address p hheld
    dsimp only [listFirmware]
    split_ifs
    · exact hheld
    · exact List.mem_append_left _ hheld

/-- A file of 124 bytes at address 4096, with a segment of four bytes at its end that goes to
address 8192, followed by four zeros. -/
def oneSegment : Mem := fun address =>
  [0x7f, 0x45, 0x4c, 0x46, 2, 1, 1, 0, 0, 0, 0, 0, 0, 0, 0, 0, 2, 0, 62, 0, 1, 0, 0, 0,
   0, 0x20, 0, 0, 0, 0, 0, 0, 64, 0, 0, 0, 0, 0, 0, 0, 0, 0, 0, 0, 0, 0, 0, 0,
   0, 0, 0, 0, 64, 0, 56, 0, 1, 0, 0, 0, 0, 0, 0, 0,
   1, 0, 0, 0, 5, 0, 0, 0, 120, 0, 0, 0, 0, 0, 0, 0, 0, 0x20, 0, 0, 0, 0, 0, 0,
   0, 0x20, 0, 0, 0, 0, 0, 0, 4, 0, 0, 0, 0, 0, 0, 0, 8, 0, 0, 0, 0, 0, 0, 0,
   0, 0x10, 0, 0, 0, 0, 0, 0, 0xfa, 0xf4, 0xeb, 0xfd].getD (address - 4096) 0

theorem eq_of_status {φ : Type} {r : Option ℕ × Option ℕ × Loader φ} {status : ℕ}
    (h : r.1 = some status) : r = (some status, r.2.1, r.2.2) := Prod.ext h rfl

theorem elf_load_installs_image_one : ∃ entry l,
    bootLoadKernelElf listFirmware 4096 124 (.start oneSegment [1]) =
      (some efiSuccess, entry, l) ∧
    (∀ i < 4, l.mem (8192 + i) = imageAt 4096 oneSegment (120 + i)) ∧
    l.grants = [(8192, 1)] ∧ entry = some 0x2000 := by
  have hsegments : loadable (imageAt 4096 oneSegment) (phnum (imageAt 4096 oneSegment)) =
      [⟨1, 120, 8192, 4, 8⟩] := by decide +kernel
  have hfile : WellPlaced (imageAt 4096 oneSegment) 124 := by
    refine ⟨by decide +kernel, ?_⟩
    rw [hsegments, List.forall_mem_singleton]
    exact ⟨by decide, by decide, by decide, by decide⟩
  have hend := eq_of_status (r := bootLoadKernelElf listFirmware 4096 124 (.start oneSegment [1]))
    (show _ = some efiSuccess by decide +kernel)
  obtain ⟨hcontent, -, -, -, hgrants, -, hentry⟩ :=
    elf_load_installs_image listFirmware_exclusive (by decide +kernel) hfile hend
  rw [hsegments] at hcontent hgrants
  refine ⟨_, _, hend, (hcontent _ List.mem_cons_self).1, hgrants, hentry.trans (by decide +kernel)⟩

end Tianole.Boot
