import Tianole.Boot.ImageLoaded

/-! Which bytes of the file image the kernel loader reads, told from the file and from what the
firmware answers. -/
namespace Tianole.Boot
open Memory Word

/-! ### The file -/

/-- What `validate_kernel_elf` accepts. -/
def ValidHeader (file : Mem) : Prop := ∀ c ∈ headerChecks, load file c.1 c.2.1 = c.2.2

instance (file : Mem) : Decidable (ValidHeader file) := by
  unfold ValidHeader; infer_instance

/-- Entry `i` of the table. -/
def phdr (file : Mem) (i : ℕ) : Phdr := phdrAt file (phdrPos file i)

/-- What is read of an entry lies in the file: its type, and 48 bytes if it is loadable. -/
def HeaderInside (file : Mem) (size i : ℕ) : Prop :=
  phdrPos file i + (if (phdr file i).type = ptLoad then 48 else 4) ≤ size

/-- The bytes of a segment lie in the file. -/
def SegmentInside (file : Mem) (size i : ℕ) : Prop :=
  (phdr file i).type = ptLoad →
    (phdr file i).filesz = 0 ∨ (phdr file i).offset + (phdr file i).filesz ≤ size

instance (file : Mem) (size i : ℕ) : Decidable (HeaderInside file size i) := by
  unfold HeaderInside; infer_instance

instance (file : Mem) (size i : ℕ) : Decidable (SegmentInside file size i) := by
  unfold SegmentInside; infer_instance

/-- A file that can be loaded without a read outside it. -/
structure Contained (file : Mem) (size : ℕ) : Prop where
  ehdr : ehdrSize ≤ size
  table : ∀ i < phnum file, HeaderInside file size i ∧ SegmentInside file size i

/-! ### What the loop answers -/

section
variable {φ : Type} (fw : Firmware φ) (file : Mem) (f : φ) (size : ℕ)

/-- The pages that are asked for; the sum has 64 bits. -/
def Phdr.pageCount (h : Phdr) : ℕ := wrap64 (h.memsz + 0xfff) >>> 12

/-- The firmware when the loop comes to entry `i`. -/
def firmwareAt : ℕ → φ
  | 0 => f
  | i + 1 =>
      if (phdr file i).type = ptLoad then
        (fw.allocatePages (firmwareAt i) (phdr file i).pageCount (phdr file i).paddr).1
      else firmwareAt i

/-- What the firmware answers when the loop asks for the pages of entry `i`. -/
def allocationStatus (i : ℕ) : ℕ :=
  (fw.allocatePages (firmwareAt fw file f i) (phdr file i).pageCount (phdr file i).paddr).2

/-- The loop goes on after entry `i`: the checks hold and the pages are granted. -/
def Passed (i : ℕ) : Prop :=
  (phdr file i).type = ptLoad →
    (phdr file i).filesz ≤ (phdr file i).memsz ∧
    wrap64 ((phdr file i).offset + (phdr file i).filesz) ≤ size ∧
    allocationStatus fw file f i = efiSuccess

/-- The loop ends at entry `i` with `EFI_LOAD_ERROR`. -/
def Rejected (i : ℕ) : Prop :=
  (phdr file i).type = ptLoad ∧
    ((phdr file i).memsz < (phdr file i).filesz ∨
      size < wrap64 ((phdr file i).offset + (phdr file i).filesz) ∨
      allocationStatus fw file f i = efiLoadError)

instance (i : ℕ) : Decidable (Passed fw file f size i) := by
  unfold Passed; infer_instance

instance (i : ℕ) : Decidable (Rejected fw file f size i) := by
  unfold Rejected; infer_instance

/-- An entry is rejected, and neither it nor any entry before it leads outside the file. -/
def RejectedInTime : Prop :=
  ∃ n < phnum file, (∀ i < n, HeaderInside file size i ∧ SegmentInside file size i ∧
    Passed fw file f size i) ∧ HeaderInside file size n ∧ Rejected fw file f size n

variable {fw file f size} in
theorem Rejected.not_passed {i : ℕ} (h : Rejected fw file f size i) :
    ¬ Passed fw file f size i := by
  intro hpassed
  obtain ⟨hsizes, hend, hgranted⟩ := hpassed h.1
  rcases h.2 with hbad | hbad | hbad
  · omega
  · omega
  · exact absurd (hgranted.symm.trans hbad) (by decide)

/-! ### Segments apart from the image -/

/-- No byte that is written for a segment belongs to the image. -/
def Phdr.Clear (img size : ℕ) (h : Phdr) : Prop :=
  ∀ k < h.memsz, ∀ o < size, wrap64 (h.paddr + k) ≠ wrap64 (img + o)

/-- The pages granted to the loop are not those of the image. -/
def GrantsClear (img : ℕ) : Prop :=
  ∀ i < phnum file, (∀ j ≤ i, Passed fw file f size j) → (phdr file i).type = ptLoad →
    (phdr file i).Clear img size

end

section
variable {φ : Type} {fw : Firmware φ} {file mem : Mem} {f : φ} {img size i : ℕ} {l l' : Loader φ}

theorem Phdr.Placed.pageCount {h : Phdr} (hp : h.Placed size) : h.pageCount = h.grant.2 := by
  unfold Phdr.pageCount
  rw [wrap64_of_lt hp.pages, Nat.shiftRight_eq_div_pow]
  rfl

theorem held_firmwareAt {held : φ → ℕ → Prop} (hfw : fw.Exclusive held) {p : ℕ} (hp : held f p)
    (i : ℕ) : held (firmwareAt fw file f i) p := by
  induction i with
  | zero => exact hp
  | succ i ih =>
    unfold firmwareAt
    split_ifs
    · exact hfw.keeps ih
    · exact ih

/-- A firmware that grants only pages that nobody holds, the pages of the image being held. -/
theorem GrantsClear.of_exclusive {held : φ → ℕ → Prop} (hfw : fw.Exclusive held)
    (hheld : ∀ o < size, held f (wrap64 (img + o) / efiPageSize))
    (hplaced : ∀ i < phnum file, Passed fw file f size i → (phdr file i).type = ptLoad →
      (phdr file i).Placed size) : GrantsClear fw file f size img := by
  intro i hi hpassed hload k hk o ho hsame
  have hp := hplaced i hi (hpassed i (Nat.le_refl i)) hload
  obtain ⟨-, -, hgranted⟩ := hpassed i (Nat.le_refl i) hload
  have hbound := hp.bound
  rw [wrap64_of_lt (by omega)] at hsame
  have hcovers : (phdr file i).Covers (wrap64 (img + o)) := by
    constructor <;> omega
  unfold allocationStatus at hgranted
  rw [hp.pageCount] at hgranted
  exact (hcovers.fresh hp hfw hgranted).1 (held_firmwareAt hfw (hheld o ho) i)

/-! ### Reads of one segment -/

/-- Every byte that was read lies in the image. -/
def Below (size : ℕ) (l : Loader φ) : Prop := ∀ offset ∈ l.reads, offset < size

theorem range_below {offset width : ℕ} :
    (∀ o ∈ (List.range width).map (offset + ·), o < size) ↔ width = 0 ∨ offset + width ≤ size := by
  simp only [List.mem_map, List.mem_range, forall_exists_index, and_imp, forall_apply_eq_imp_iff₂]
  constructor
  · intro h
    rcases Nat.eq_zero_or_pos width with hzero | hpos
    · exact .inl hzero
    · have := h (width - 1) (by omega)
      exact .inr (by omega)
  · intro h i hi
    omega

@[simp] theorem below_read {offset width : ℕ} : Below size (l.read offset width) ↔
    Below size l ∧ (width = 0 ∨ offset + width ≤ size) := by
  simp only [Below, Loader.read, List.forall_mem_append, range_below]

@[simp] theorem below_memZero {dst n : ℕ} : Below size (l.memZero dst n) ↔ Below size l := Iff.rfl

@[simp] theorem below_memCopy {dst offset n : ℕ} : Below size (l.memCopy img dst offset n) ↔
    Below size l ∧ (n = 0 ∨ offset + n ≤ size) := below_read

variable {pos : ℕ}

theorem zeroSegment_below (img pos : ℕ) (l : Loader φ) :
    Below size (zeroSegment img pos l) ↔ Below size l ∧ pos + 48 ≤ size := by
  simp only [zeroSegment, below_read, below_memZero, and_assoc]
  exact and_congr_right fun _ => by omega

theorem allocateSegment_below (h : Below size (allocateSegment fw img pos l).2) :
    Below size l ∧ pos + 48 ≤ size := by
  unfold allocateSegment at h
  dsimp only at h
  split_ifs at h
  · obtain ⟨⟨hl, -⟩, hread⟩ := (below_read.trans (and_congr_left' below_read)).mp h
    exact ⟨hl, by omega⟩
  · have hzeroed := (zeroSegment_below img pos _).mp (below_memCopy.mp h).1
    exact ⟨(below_read.mp (below_read.mp hzeroed.1).1).1, hzeroed.2⟩

/-- An entry is not inspected without a read of its type, and of its first 48 bytes if it is
loadable. -/
theorem loadSegment_below (h : Below size (loadSegment fw img size pos l).2) :
    Below size l ∧ pos + (if l.field img pos 4 = ptLoad then 48 else 4) ≤ size := by
  unfold loadSegment at h
  dsimp only at h
  rw [Loader.field_read] at h
  by_cases htype : l.field img pos 4 = ptLoad
  · rw [if_neg (not_not.mpr htype)] at h
    rw [if_pos htype]
    split_ifs at h with hsizes hend
    · simp only [below_read] at h
      exact ⟨h.1.1.1, by omega⟩
    · simp only [below_read] at h
      exact ⟨h.1.1.1.1.1, by omega⟩
    · obtain ⟨hl, hpos⟩ := allocateSegment_below h
      simp only [below_read] at hl
      exact ⟨hl.1.1.1.1.1, hpos⟩
  · rw [if_pos htype] at h
    rw [if_neg htype]
    simp only [below_read] at h
    exact ⟨h.1, by omega⟩

/-- What was read before a loop stays read. -/
theorem segmentLoop_below {phoff n index : ℕ}
    (h : Below size (segmentLoop fw img size phoff n index l).2) : Below size l := by
  induction n generalizing index l with
  | zero => exact h
  | succ n ih =>
    rw [segmentLoop] at h
    split_ifs at h with hmore
    · have hstep (h' : Below size
          (loadSegment fw img size (phoff + phdrSize * index) (l.read 56 2)).2) : Below size l :=
        (below_read.mp (loadSegment_below h').1).1
      generalize loadSegment fw img size (phoff + phdrSize * index) (l.read 56 2) = r at h hstep
      obtain ⟨_ | status, l'⟩ := r
      · exact hstep (ih h)
      · exact hstep h
    · exact (below_read.mp h).1

/-- The loop ends: the index stays below a number of 16 bits. -/
theorem segmentLoop_ends {phoff n index : ℕ} (l : Loader φ) (hn : 2 ^ 16 ≤ n + index)
    (hindex : index < 2 ^ 16) : (segmentLoop fw img size phoff n index l).1 ≠ none := by
  induction n generalizing index l with
  | zero => omega
  | succ n ih =>
    have hphnum : (l.read 56 2).field img 56 2 < 2 ^ 16 := load_lt
    rw [segmentLoop]
    split_ifs with hmore
    · generalize loadSegment fw img size (phoff + phdrSize * index) (l.read 56 2) = r
      obtain ⟨_ | status, l'⟩ := r
      · exact ih l' (by omega) (by omega)
      · exact Option.some_ne_none _
    · exact Option.some_ne_none _

/-- A loop that begins after a read outside the image returns, and the read remains. -/
theorem segmentLoop_outside (fw : Firmware φ) (img phoff : ℕ) (hl : ¬ Below size l) {n index : ℕ}
    (hn : 2 ^ 16 ≤ n + index) (hindex : index < 2 ^ 16) :
    ∃ status l', segmentLoop fw img size phoff n index l = (some status, l') ∧
      ¬ Below size l' := by
  have hends : (segmentLoop fw img size phoff n index l).1 ≠ none := segmentLoop_ends l hn hindex
  have hkeeps : ¬ Below size (segmentLoop fw img size phoff n index l).2 :=
    fun h => hl (segmentLoop_below h)
  generalize segmentLoop fw img size phoff n index l = r at hends hkeeps
  obtain ⟨_ | status, l'⟩ := r
  · exact absurd rfl hends
  · exact ⟨status, l', rfl, hkeeps⟩

/-! ### One entry of the table -/

theorem Holds.memZero (hh : Holds img size file l.mem) {dst n : ℕ}
    (hclear : ∀ k < n, ∀ o < size, wrap64 (dst + k) ≠ wrap64 (img + o)) :
    Holds img size file (l.memZero dst n).mem := by
  intro o ho
  refine Eq.trans (Access.run_of_forall_ne ?_) (hh o ho)
  simp only [List.mem_map, List.mem_range, forall_exists_index, and_imp, forall_apply_eq_imp_iff₂,
    Access.target]
  exact fun k hk he => hclear k hk o ho he.symm

theorem Holds.memCopy (hh : Holds img size file l.mem) {dst offset n : ℕ}
    (hclear : ∀ k < n, ∀ o < size, wrap64 (dst + k) ≠ wrap64 (img + o)) :
    Holds img size file (l.memCopy img dst offset n).mem := by
  intro o ho
  refine Eq.trans (Access.run_of_forall_ne ?_) (hh o ho)
  simp only [List.mem_map, List.mem_range, forall_exists_index, and_imp, forall_apply_eq_imp_iff₂,
    Access.target]
  exact fun k hk he => hclear k hk o ho he.symm

/-- A segment apart from the image is filled from the file, which stays as it is. -/
theorem placeSegment_clear (hh : Holds img size file l.mem) (hpos : pos + 48 ≤ size)
    (hclear : (phdrAt file pos).Clear img size)
    (hsizes : (phdrAt file pos).filesz ≤ (phdrAt file pos).memsz) :
    Holds img size file (placeSegment img pos l).mem ∧
    (placeSegment img pos l).firmware = l.firmware ∧
    (Below size (placeSegment img pos l) ↔ Below size l ∧ ((phdrAt file pos).filesz = 0 ∨
      (phdrAt file pos).offset + (phdrAt file pos).filesz ≤ size)) := by
  have hpaddr : l.field img (pos + 24) 8 = (phdrAt file pos).paddr := hh.field (by omega)
  have hmemsz : l.field img (pos + 40) 8 = (phdrAt file pos).memsz := hh.field (by omega)
  have hz : Holds img size file (zeroSegment img pos l).mem := by
    simp only [zeroSegment, Loader.mem_read, Loader.field_read, hpaddr, hmemsz]
    exact hh.memZero hclear
  have hfirmware : (zeroSegment img pos l).firmware = l.firmware := by simp [zeroSegment]
  have hbelow : Below size (zeroSegment img pos l) ↔ Below size l ∧ pos + 48 ≤ size :=
    zeroSegment_below img pos l
  unfold placeSegment
  generalize zeroSegment img pos l = z at hz hfirmware hbelow
  -- The header is read again, and is as it was.
  have hpaddr' : z.field img (pos + 24) 8 = (phdrAt file pos).paddr := hz.field (by omega)
  have hoffset : z.field img (pos + 8) 8 = (phdrAt file pos).offset := hz.field (by omega)
  have hfilesz : z.field img (pos + 32) 8 = (phdrAt file pos).filesz := hz.field (by omega)
  dsimp only
  rw [hpaddr', hoffset, hfilesz]
  generalize phdrAt file pos = h at hclear hsizes
  refine ⟨hz.memCopy fun k hk => hclear k (by omega), hfirmware, ?_⟩
  rw [below_memCopy, hbelow, and_iff_left hpos]

/-- Further reads of a header that lies in the image. -/
theorem below_read_of_le {offset width : ℕ} (h : offset + width ≤ size) :
    Below size (l.read offset width) ↔ Below size l := by
  rw [below_read, and_iff_left (.inr h)]

/-- The pages of an entry that passed the checks are asked for; if they are granted the segment is
filled and the file stays as it was. -/
theorem allocateSegment_verdict (hh : Holds img size file l.mem)
    (hfirmware : l.firmware = firmwareAt fw file f i) (hload : (phdr file i).type = ptLoad)
    (hin : phdrPos file i + 48 ≤ size) (hsizes : (phdr file i).filesz ≤ (phdr file i).memsz)
    (hclear : allocationStatus fw file f i = efiSuccess → (phdr file i).Clear img size) :
    (allocationStatus fw file f i = efiSuccess ∧ ∃ l',
      allocateSegment fw img (phdrPos file i) l = (none, l') ∧ Holds img size file l'.mem ∧
      l'.firmware = firmwareAt fw file f (i + 1) ∧
      (Below size l' ↔ Below size l ∧ SegmentInside file size i)) ∨
    (allocationStatus fw file f i ≠ efiSuccess ∧ ∃ l',
      allocateSegment fw img (phdrPos file i) l = (some (allocationStatus fw file f i), l') ∧
      (Below size l' ↔ Below size l)) := by
  have hmemsz : l.field img (phdrPos file i + 40) 8 = (phdr file i).memsz := hh.field (by omega)
  have hpaddr : l.field img (phdrPos file i + 24) 8 = (phdr file i).paddr := hh.field (by omega)
  have hread : Below size ((l.read (phdrPos file i + 24) 8).read (phdrPos file i + 40) 8) ↔
      Below size l := by
    rw [below_read_of_le (by omega), below_read_of_le (by omega)]
  unfold allocateSegment
  simp only [Loader.field_read, Loader.firmware_read, hpaddr, hmemsz, hfirmware]
  split_ifs with hstatus
  · exact .inr ⟨hstatus, _, rfl, hread⟩
  · have hgranted : allocationStatus fw file f i = efiSuccess := not_not.mp hstatus
    refine .inl ⟨hgranted, _, rfl, ?_⟩
    have hsegment : SegmentInside file size i ↔ (phdr file i).filesz = 0 ∨
        (phdr file i).offset + (phdr file i).filesz ≤ size := forall_prop_of_true hload
    rw [firmwareAt, if_pos hload, hsegment, ← hread]
    exact placeSegment_clear hh hin (hclear hgranted) hsizes

/-- What the loop does with an entry that lies in the file: it goes on, with the file as it was and
with reads outside it exactly if the segment is; or it ends, with no read outside. -/
theorem loadSegment_verdict (hh : Holds img size file l.mem)
    (hfirmware : l.firmware = firmwareAt fw file f i) (hin : HeaderInside file size i)
    (hclear : Passed fw file f size i → (phdr file i).type = ptLoad →
      (phdr file i).Clear img size) :
    (Passed fw file f size i ∧ ∃ l', loadSegment fw img size (phdrPos file i) l = (none, l') ∧
      Holds img size file l'.mem ∧ l'.firmware = firmwareAt fw file f (i + 1) ∧
      (Below size l' ↔ Below size l ∧ SegmentInside file size i)) ∨
    (¬ Passed fw file f size i ∧ ∃ status l',
      loadSegment fw img size (phdrPos file i) l = (some status, l') ∧
      (status = efiLoadError ↔ Rejected fw file f size i) ∧ (Below size l' ↔ Below size l)) := by
  unfold HeaderInside at hin
  have hpos : phdrPos file i + 4 ≤ size := by split_ifs at hin <;> omega
  have htype : l.field img (phdrPos file i) 4 = (phdr file i).type := hh.field hpos
  unfold loadSegment
  simp only [Loader.field_read, htype]
  by_cases hload : (phdr file i).type = ptLoad
  swap
  · have hsegment : SegmentInside file size i := fun h => absurd h hload
    rw [if_pos hload, firmwareAt, if_neg hload]
    refine .inl ⟨fun h => absurd h hload, _, rfl, hh, hfirmware, ?_⟩
    rw [below_read_of_le hpos, and_iff_left hsegment]
  rw [if_pos hload] at hin
  rw [if_neg (not_not.mpr hload)]
  have hfilesz : l.field img (phdrPos file i + 32) 8 = (phdr file i).filesz := hh.field (by omega)
  have hmemsz : l.field img (phdrPos file i + 40) 8 = (phdr file i).memsz := hh.field (by omega)
  have hoffset : l.field img (phdrPos file i + 8) 8 = (phdr file i).offset := hh.field (by omega)
  have hread : Below size (((l.read (phdrPos file i) 4).read (phdrPos file i + 40) 8).read
      (phdrPos file i + 32) 8) ↔ Below size l := by
    rw [below_read_of_le (by omega), below_read_of_le (by omega), below_read_of_le hpos]
  have hread' : Below size (((((l.read (phdrPos file i) 4).read (phdrPos file i + 40) 8).read
      (phdrPos file i + 32) 8).read (phdrPos file i + 8) 8).read (phdrPos file i + 32) 8) ↔
      Below size l := by
    rw [below_read_of_le (by omega), below_read_of_le (by omega), hread]
  simp only [hfilesz, hmemsz, hoffset]
  split_ifs with hsizes hend
  · have hrejected : Rejected fw file f size i := ⟨hload, .inl hsizes⟩
    exact .inr ⟨hrejected.not_passed, _, _, rfl, iff_of_true rfl hrejected, hread⟩
  · have hrejected : Rejected fw file f size i := ⟨hload, .inr (.inl hend)⟩
    exact .inr ⟨hrejected.not_passed, _, _, rfl, iff_of_true rfl hrejected, hread'⟩
  · have hsizes := Nat.not_lt.mp hsizes
    have hend := Nat.not_lt.mp hend
    rw [← hread']
    rcases allocateSegment_verdict (l := (((((l.read (phdrPos file i) 4).read
        (phdrPos file i + 40) 8).read (phdrPos file i + 32) 8).read (phdrPos file i + 8) 8).read
        (phdrPos file i + 32) 8)) hh hfirmware hload hin hsizes
        (fun h => hclear (fun _ => ⟨hsizes, hend, h⟩) hload) with
      ⟨hgranted, hplaced⟩ | ⟨hrefused, l', hstep, hbelow⟩
    · exact .inl ⟨fun _ => ⟨hsizes, hend, hgranted⟩, hplaced⟩
    · refine .inr ⟨fun h => hrefused (h hload).2.2, _, l', hstep, ?_, hbelow⟩
      refine ⟨fun h => ⟨hload, .inr (.inr h)⟩, fun h => ?_⟩
      rcases h.2 with hbad | hbad | hbad
      · omega
      · omega
      · exact hbad

/-! ### The whole table -/

/-- The loop has come to entry `index` without a read outside, and the file is as it was. -/
structure Reading (fw : Firmware φ) (file : Mem) (f : φ) (img size index : ℕ) (l : Loader φ) :
    Prop where
  image : Holds img size file l.mem
  firmware : l.firmware = firmwareAt fw file f index
  below : Below size l
  before : ∀ i < index, HeaderInside file size i ∧ SegmentInside file size i ∧
    Passed fw file f size i

theorem Reading.read {index offset width : ℕ} (h : Reading fw file f img size index l)
    (hin : offset + width ≤ size) : Reading fw file f img size index (l.read offset width) :=
  ⟨h.image, h.firmware, (below_read_of_le hin).mpr h.below, h.before⟩

/-- Entry `n` leads outside the file, and the loop does not stop there or before. -/
structure Unnoticed (fw : Firmware φ) (file : Mem) (f : φ) (size n : ℕ) : Prop where
  inTable : n < phnum file
  passed : ∀ i < n, Passed fw file f size i
  leads : ¬(HeaderInside file size n ∧ SegmentInside file size n)
  goesOn : HeaderInside file size n → Passed fw file f size n

/-- How the loop ends: with a read outside the image, at the end of the table, or at an entry that
it refuses. -/
inductive Ended (fw : Firmware φ) (file : Mem) (f : φ) (size status : ℕ) (l : Loader φ) : Prop where
  | outside (n : ℕ) (entry : Unnoticed fw file f size n) (below : ¬ Below size l)
  | complete (inside : ∀ i < phnum file, HeaderInside file size i ∧ SegmentInside file size i)
      (below : Below size l)
  | refused (n : ℕ) (inTable : n < phnum file)
      (before : ∀ i < n, HeaderInside file size i ∧ SegmentInside file size i ∧
        Passed fw file f size i)
      (header : HeaderInside file size n) (stops : ¬ Passed fw file f size n)
      (answer : status = efiLoadError ↔ Rejected fw file f size n) (below : Below size l)

variable {index : ℕ}

/-- One entry: the loop goes on within the file, it ends, or it has read outside the image. -/
theorem Reading.loadSegment (h : Reading fw file f img size index l)
    (hclear : GrantsClear fw file f size img) (hmore : index < phnum file) :
    (∃ l', loadSegment fw img size (phdrPos file index) l = (none, l') ∧
      Reading fw file f img size (index + 1) l') ∨
    (∃ status l', loadSegment fw img size (phdrPos file index) l = (some status, l') ∧
      Ended fw file f size status l') ∨
    ¬ Below size (loadSegment fw img size (phdrPos file index) l).2 ∧
      Unnoticed fw file f size index := by
  have hpassed : ∀ i < index, Passed fw file f size i := fun i hi => (h.before i hi).2.2
  by_cases hin : HeaderInside file size index
  swap
  · refine .inr (.inr ⟨fun hbelow => hin ?_, hmore, hpassed, fun hi => hin hi.1, (absurd · hin)⟩)
    obtain ⟨-, hread⟩ := loadSegment_below hbelow
    have htype : l.field img (phdrPos file index) 4 = (phdr file index).type :=
      h.image.field (by split_ifs at hread <;> omega)
    rwa [htype] at hread
  have hclear' (hp : Passed fw file f size index) :=
    hclear index hmore fun j hj => (Nat.lt_or_eq_of_le hj).elim (hpassed j) (· ▸ hp)
  rcases loadSegment_verdict h.image h.firmware hin hclear' with
    ⟨hgoes, l', hstep, himage, hfirmware, hbelow⟩ | ⟨hstops, status, l', hstep, hanswer, hbelow⟩
  · by_cases hsegment : SegmentInside file size index
    · refine .inl ⟨l', hstep, himage, hfirmware, hbelow.mpr ⟨h.below, hsegment⟩, fun i hi => ?_⟩
      rcases Nat.lt_succ_iff_lt_or_eq.mp hi with hlt | rfl
      · exact h.before i hlt
      · exact ⟨hin, hsegment, hgoes⟩
    · rw [hstep]
      refine .inr (.inr ⟨fun hb => hsegment (hbelow.mp hb).2, hmore, hpassed, ?_, fun _ => hgoes⟩)
      exact fun hi => hsegment hi.2
  · exact .inr (.inl ⟨status, l', hstep,
      .refused index hmore h.before hin hstops hanswer (hbelow.mpr h.below)⟩)

/-- From an entry on, the loop returns, and ends in one of the three ways. -/
theorem Reading.segmentLoop {n : ℕ} (h : Reading fw file f img size index l)
    (hclear : GrantsClear fw file f size img) (hsize : 64 ≤ size)
    (hindex : index ≤ phnum file) (hn : 2 ^ 16 ≤ n + index) :
    ∃ status l', Boot.segmentLoop fw img size (load file 32 8) n index l = (some status, l') ∧
      Ended fw file f size status l' := by
  have hphnum : phnum file < 2 ^ 16 := load_lt
  induction n generalizing index l with
  | zero => omega
  | succ n ih =>
    have hread : Reading fw file f img size index (l.read 56 2) := h.read (by omega)
    have hfield : (l.read 56 2).field img 56 2 = phnum file := hread.image.field (by omega)
    rw [Boot.segmentLoop, hfield]
    split_ifs with hmore
    · rw [← phdrPos]
      rcases hread.loadSegment hclear hmore with
        ⟨l', hstep, hl'⟩ | ⟨status, l', hstep, hended⟩ | ⟨hbelow, hentry⟩
      · rw [hstep]
        exact ih hl' hmore (by omega)
      · rw [hstep]
        exact ⟨status, l', rfl, hended⟩
      · -- What follows does not undo the read outside the image.
        generalize Boot.loadSegment fw img size (phdrPos file index) (l.read 56 2) = r at hbelow
        obtain ⟨_ | status, l₁⟩ := r
        · have hn' : 2 ^ 16 ≤ n + (index + 1) := by omega
          obtain ⟨status, l₂, hrest, houtside⟩ :=
            segmentLoop_outside fw img (load file 32 8) hbelow hn' (by omega)
          exact ⟨status, l₂, hrest, .outside index hentry houtside⟩
        · exact ⟨status, l₁, rfl, .outside index hentry hbelow⟩
    · have hlast : index = phnum file := by omega
      subst hlast
      exact ⟨efiSuccess, _, rfl, .complete (fun i hi =>
        ⟨(hread.before i hi).1, (hread.before i hi).2.1⟩) hread.below⟩

/-- Nothing outside the image is read, and a file that cannot be loaded without that is rejected,
exactly if the file can be loaded or an entry is rejected in time. -/
theorem Ended.guarded_iff {status : ℕ} (h : Ended fw file f size status l)
    (hsize : ehdrSize ≤ size) :
    Below size l ∧ (¬ Contained file size → status = efiLoadError) ↔
      Contained file size ∨ RejectedInTime fw file f size := by
  cases h with
  | outside n entry below =>
    refine iff_of_false (fun hb => below hb.1) ?_
    rintro (hfile | ⟨m, hm, hbefore, hheader, hrejected⟩)
    · exact entry.leads (hfile.table n entry.inTable)
    · rcases Nat.lt_trichotomy m n with hlt | rfl | hgt
      · exact hrejected.not_passed (entry.passed m hlt)
      · exact hrejected.not_passed (entry.goesOn hheader)
      · exact entry.leads ⟨(hbefore n hgt).1, (hbefore n hgt).2.1⟩
  | complete inside below =>
    have hfile : Contained file size := ⟨hsize, inside⟩
    exact iff_of_true ⟨below, fun hnot => absurd hfile hnot⟩ (.inl hfile)
  | refused n inTable before header stops answer below =>
    constructor
    · rintro ⟨-, hstatus⟩
      by_cases hfile : Contained file size
      · exact .inl hfile
      · exact .inr ⟨n, inTable, before, header, answer.mp (hstatus hfile)⟩
    · rintro (hfile | ⟨m, hm, hbefore, hheader, hrejected⟩)
      · exact ⟨below, fun hnot => absurd hfile hnot⟩
      · refine ⟨below, fun _ => answer.mpr ?_⟩
        rcases Nat.lt_trichotomy m n with hlt | rfl | hgt
        · exact absurd (before m hlt).2.2 hrejected.not_passed
        · exact hrejected
        · exact absurd (hbefore n hgt).2.2 stops

/-! ### The file header -/

theorem checkFields_true_iff (checks : List (ℕ × ℕ × ℕ)) (l : Loader φ) :
    (checkFields img checks l).1 = true ↔ ∀ c ∈ checks, l.field img c.1 c.2.1 = c.2.2 := by
  induction checks generalizing l with
  | nil => simp [checkFields]
  | cons c checks ih =>
    obtain ⟨offset, width, expected⟩ := c
    rw [checkFields, List.forall_mem_cons, Loader.field_read]
    split_ifs with hfield
    · exact iff_of_false not_false fun h => hfield h.1
    · exact (ih _).trans (and_iff_right (not_not.mp hfield)).symm

theorem checkFields_below {checks : List (ℕ × ℕ × ℕ)} (h : Below size l)
    (hin : ∀ c ∈ checks, c.1 + c.2.1 ≤ size) : Below size (checkFields img checks l).2 := by
  induction checks generalizing l with
  | nil => exact h
  | cons c checks ih =>
    obtain ⟨offset, width, expected⟩ := c
    have hread : Below size (l.read offset width) :=
      (below_read_of_le (hin _ List.mem_cons_self)).mpr h
    rw [checkFields]
    split_ifs
    · exact hread
    · exact ih hread fun c hc => hin c (List.mem_cons_of_mem _ hc)

theorem validateKernelElf_below (h : Below size l) (hsize : 64 ≤ size) :
    Below size (validateKernelElf img l).2 := by
  have hbound : ∀ c ∈ headerChecks, c.1 + c.2.1 ≤ 64 := by decide
  rw [validateKernelElf_snd]
  exact checkFields_below h fun c hc => Nat.le_trans (hbound c hc) hsize

/-- The header is accepted or the status is `EFI_LOAD_ERROR`. -/
theorem validateKernelElf_fst (img : ℕ) (mem : Mem) (f : φ) :
    (validateKernelElf img (.start mem f)).1 =
      if ValidHeader (imageAt img mem) then efiSuccess else efiLoadError := by
  have hiff : (checkFields img headerChecks (Loader.start mem f)).1 = true ↔
      ValidHeader (imageAt img mem) := checkFields_true_iff headerChecks _
  unfold validateKernelElf
  generalize checkFields img headerChecks (Loader.start mem f) = checked at hiff
  obtain ⟨_ | _, l⟩ := checked
  · rw [if_neg fun h => absurd (hiff.mpr h) nofun]
  · rw [if_pos (hiff.mp rfl)]

end

/-- A file of 180 bytes at address 4096 with two segments: one of four bytes that goes to address
8192, and one that begins at the last byte of the file and has two. -/
def twoSegments : Mem := fun address =>
  [0x7f, 0x45, 0x4c, 0x46, 2, 1, 1, 0, 0, 0, 0, 0, 0, 0, 0, 0, 2, 0, 62, 0, 1, 0, 0, 0,
   0, 0x20, 0, 0, 0, 0, 0, 0, 64, 0, 0, 0, 0, 0, 0, 0, 0, 0, 0, 0, 0, 0, 0, 0,
   0, 0, 0, 0, 64, 0, 56, 0, 2, 0, 0, 0, 0, 0, 0, 0,
   1, 0, 0, 0, 5, 0, 0, 0, 176, 0, 0, 0, 0, 0, 0, 0, 0, 0x20, 0, 0, 0, 0, 0, 0,
   0, 0x20, 0, 0, 0, 0, 0, 0, 4, 0, 0, 0, 0, 0, 0, 0, 8, 0, 0, 0, 0, 0, 0, 0,
   0, 0x10, 0, 0, 0, 0, 0, 0,
   1, 0, 0, 0, 6, 0, 0, 0, 179, 0, 0, 0, 0, 0, 0, 0, 0, 0x30, 0, 0, 0, 0, 0, 0,
   0, 0x30, 0, 0, 0, 0, 0, 0, 2, 0, 0, 0, 0, 0, 0, 0, 2, 0, 0, 0, 0, 0, 0, 0,
   0, 0x10, 0, 0, 0, 0, 0, 0, 0xfa, 0xf4, 0xeb, 0xfd].getD (address - 4096) 0

/-- An image that is a file header only, whose table of one entry begins where it ends. -/
def tableAtEnd : Mem := fun address =>
  [0x7f, 0x45, 0x4c, 0x46, 2, 1, 1, 0, 0, 0, 0, 0, 0, 0, 0, 0, 2, 0, 62, 0, 1, 0, 0, 0,
   0, 0, 0, 0, 0, 0, 0, 0, 64, 0, 0, 0, 0, 0, 0, 0, 0, 0, 0, 0, 0, 0, 0, 0,
   0, 0, 0, 0, 64, 0, 56, 0, 1, 0, 0, 0, 0, 0, 0, 0].getD address 0

end Tianole.Boot
