import Tianole.Lib.Memory
import Tianole.Lib.Runs
import Tianole.Mm.Common

/-! Page tables in physical memory, after `arch/x86/mm/page_table.h`, and the record of active
table pages that `arch/x86/mm/page_table_boot.c` keeps for the page allocator. Physical memory
is mapped to itself. -/
namespace Tianole.Mm
open Memory Runs

def pagePresent : ℕ := 2 ^ 0
def pageWritable : ℕ := 2 ^ 1
def pageNoExecute : ℕ := 2 ^ 63

def x86PageTableEntries : ℕ := 512
def x86PageMask : ℕ := 0x000ffffffffff000
def x86PageSizeFlag : ℕ := 2 ^ 7

def isPresent (entry : ℕ) : Bool := entry &&& pagePresent != 0
def isLarge (entry : ℕ) : Bool := entry &&& x86PageSizeFlag != 0

def entryTable (entry : ℕ) : ℕ := entry &&& x86PageMask

/-- `table[index]` -/
def tableWord (mem : Mem) (table index : ℕ) : ℕ := load mem (table + 8 * index) 8

def activePml4 (cr3 : ℕ) : ℕ := cr3 &&& x86PageMask

/-- The page-table pages of the active root, with their level: 4 for the PML4 down to 1 for
page tables. Large pages are leaves. -/
inductive TablePage (mem : Mem) (root : ℕ) : ℕ → ℕ → Prop
  | root : TablePage mem root 4 root
  | next {level table index : ℕ} : TablePage mem root (level + 2) table →
      index < x86PageTableEntries → isPresent (tableWord mem table index) = true →
      (level = 2 ∨ isLarge (tableWord mem table index) = false) →
      TablePage mem root (level + 1) (entryTable (tableWord mem table index))

/-! ### Collecting the active tables -/

def maxReservedTablePages : ℕ := 4096

def addReservedTablePage (pages : List ℕ) (page : ℕ) : Except Stop (List ℕ) :=
  if page ∈ pages then .ok pages
  else if maxReservedTablePages ≤ pages.length then .error (.panic .tooManyActivePageTablePages)
  else .ok (pages ++ [page])

/-- One entry of a table: record the table that it names, and visit that. -/
def collectEntry (leaf : ℕ → Bool) (visit : ℕ → List ℕ → Except Stop (List ℕ)) (entry : ℕ)
    (pages : List ℕ) : Except Stop (List ℕ) :=
  if isPresent entry = false ∨ leaf entry = true then .ok pages
  else (addReservedTablePage pages (entryTable entry)).bind (visit (entryTable entry))

/-- The loop over the entries of one table. -/
def collectTable (mem : Mem) (leaf : ℕ → Bool) (visit : ℕ → List ℕ → Except Stop (List ℕ))
    (table : ℕ) (pages : List ℕ) : Except Stop (List ℕ) :=
  (List.range x86PageTableEntries).foldlM
    (fun pages index => collectEntry leaf visit (tableWord mem table index) pages) pages

def collectPd (mem : Mem) : ℕ → List ℕ → Except Stop (List ℕ) :=
  collectTable mem isLarge fun _ pages => .ok pages

def collectPdpt (mem : Mem) : ℕ → List ℕ → Except Stop (List ℕ) :=
  collectTable mem isLarge (collectPd mem)

def collectPml4 (mem : Mem) : ℕ → List ℕ → Except Stop (List ℕ) :=
  collectTable mem (fun _ => false) (collectPdpt mem)

def collectActivePageTables (mem : Mem) (cr3 : ℕ) : Except Stop (List ℕ) :=
  (addReservedTablePage [] (activePml4 cr3)).bind (collectPml4 mem (activePml4 cr3))

/-- `reserved_table_pages` up to `reserved_table_page_count`, and whether they are collected. -/
structure TableRecord where
  pages : List ℕ
  ready : Bool

def archPageTableUsesPage (mem : Mem) (cr3 : ℕ) (record : TableRecord) (page : ℕ) :
    Except Stop (TableRecord × Bool) :=
  if page &&& (pageSize - 1) ≠ 0 then .ok (record, false)
  else if record.ready then .ok (record, decide (page ∈ record.pages))
  else (collectActivePageTables mem cr3).map fun pages => (⟨pages, true⟩, decide (page ∈ pages))

theorem archPageTableUsesPage_of_dvd {page : ℕ} (hd : pageSize ∣ page) (mem : Mem) (cr3 : ℕ)
    (record : TableRecord) : archPageTableUsesPage mem cr3 record page =
      if record.ready then .ok (record, decide (page ∈ record.pages))
      else (collectActivePageTables mem cr3).map fun pages =>
        (⟨pages, true⟩, decide (page ∈ pages)) :=
  if_neg (not_not.mpr (land_pageOffset_of_dvd hd))

/-! ### Every table page is recorded -/

section
variable {mem : Mem} {root cr3 : ℕ} {pages pages' : List ℕ} {page entry table : ℕ}
  {leaf : ℕ → Bool} {visit : ℕ → List ℕ → Except Stop (List ℕ)}

theorem addReservedTablePage_error {e : Stop} (h : addReservedTablePage pages page = .error e) :
    e = .panic .tooManyActivePageTablePages := by
  unfold addReservedTablePage at h
  split at h
  next => cases h
  next =>
    split at h
    next => exact (Except.error.inj h).symm
    next => cases h

theorem addReservedTablePage_spec (h : addReservedTablePage pages page = .ok pages') :
    page ∈ pages' ∧ pages ⊆ pages' := by
  unfold addReservedTablePage at h
  split at h
  next hmem =>
    obtain rfl := Except.ok.inj h
    exact ⟨hmem, List.Subset.refl _⟩
  next =>
    split at h
    next => cases h
    next =>
      obtain rfl := Except.ok.inj h
      exact ⟨by simp, List.subset_append_left _ _⟩

/-- A visit of a table that only adds pages, and achieves `P`, which more pages do not spoil. -/
structure Visits (visit : ℕ → List ℕ → Except Stop (List ℕ)) (P : ℕ → List ℕ → Prop) : Prop where
  grows : ∀ {table pages pages'}, visit table pages = .ok pages' → pages ⊆ pages'
  achieves : ∀ {table pages pages'}, visit table pages = .ok pages' → P table pages'
  mono : ∀ {table pages pages'}, P table pages → pages ⊆ pages' → P table pages'
  error : ∀ {table pages e}, visit table pages = .error e → e = .panic .tooManyActivePageTablePages

/-- What visiting all tables below a table achieves. -/
def Below (mem : Mem) (leaf : ℕ → Bool) (P : ℕ → List ℕ → Prop) (table : ℕ) (pages : List ℕ) :
    Prop :=
  ∀ index < x86PageTableEntries, isPresent (tableWord mem table index) = true →
    leaf (tableWord mem table index) = false →
    entryTable (tableWord mem table index) ∈ pages ∧ P (entryTable (tableWord mem table index)) pages

variable {P : ℕ → List ℕ → Prop}

theorem collectEntry_spec (hv : Visits visit P) (h : collectEntry leaf visit entry pages = .ok pages') :
    pages ⊆ pages' ∧ (isPresent entry = true → leaf entry = false →
      entryTable entry ∈ pages' ∧ P (entryTable entry) pages') := by
  unfold collectEntry at h
  split at h
  next hskip =>
    obtain rfl := Except.ok.inj h
    refine ⟨List.Subset.refl _, fun hp hl => ?_⟩
    rcases hskip with hs | hs
    · rw [hp] at hs; cases hs
    · rw [hl] at hs; cases hs
  next =>
    obtain ⟨pages₁, hadd, hvisit⟩ := bind_ok h
    obtain ⟨hmem, hsub⟩ := addReservedTablePage_spec hadd
    exact ⟨List.Subset.trans hsub (hv.grows hvisit), fun _ _ => ⟨hv.grows hvisit hmem, hv.achieves hvisit⟩⟩

theorem collectEntry_error {e : Stop} (hv : Visits visit P)
    (h : collectEntry leaf visit entry pages = .error e) :
    e = .panic .tooManyActivePageTablePages := by
  unfold collectEntry at h
  split at h
  next => cases h
  next =>
    rcases bind_error h with hadd | ⟨pages₁, -, hvisit⟩
    · exact addReservedTablePage_error hadd
    · exact hv.error hvisit

/-- The loop visits what the entries of the table name. -/
theorem collectTable_visits (hv : Visits visit P) :
    Visits (collectTable mem leaf visit) (Below mem leaf P) := by
  -- The induction is over the indices still to come.
  have hloop : ∀ {table} {l : List ℕ} {pages pages'}, l.foldlM
      (fun pages index => collectEntry leaf visit (tableWord mem table index) pages) pages =
        .ok pages' → pages ⊆ pages' ∧ ∀ index ∈ l, isPresent (tableWord mem table index) = true →
      leaf (tableWord mem table index) = false → entryTable (tableWord mem table index) ∈ pages' ∧
        P (entryTable (tableWord mem table index)) pages' := by
    intro table l
    induction l with
    | nil =>
      intro pages pages' h
      obtain rfl := Except.ok.inj h
      exact ⟨List.Subset.refl _, by simp⟩
    | cons index l ih =>
      intro pages pages' h
      rw [List.foldlM_cons] at h
      obtain ⟨pages₁, hentry, hrest⟩ := bind_ok h
      obtain ⟨hsub, hdone⟩ := collectEntry_spec hv hentry
      obtain ⟨hsub', hdone'⟩ := ih hrest
      refine ⟨List.Subset.trans hsub hsub', List.forall_mem_cons.mpr ⟨fun hp hl => ?_, hdone'⟩⟩
      obtain ⟨hmem, hP⟩ := hdone hp hl
      exact ⟨hsub' hmem, hv.mono hP hsub'⟩
  have herror : ∀ {table} {l : List ℕ} {pages e}, l.foldlM
      (fun pages index => collectEntry leaf visit (tableWord mem table index) pages) pages =
        .error e → e = .panic .tooManyActivePageTablePages := by
    intro table l
    induction l with
    | nil =>
      intro pages e h
      cases h
    | cons index l ih =>
      intro pages e h
      rw [List.foldlM_cons] at h
      rcases bind_error h with hentry | ⟨pages₁, -, hrest⟩
      · exact collectEntry_error hv hentry
      · exact ih hrest
  refine ⟨fun h => (hloop h).1, fun h index hi => (hloop h).2 index (List.mem_range.mpr hi),
    fun h hsub index hi hp hl => ?_, herror⟩
  obtain ⟨hmem, hP⟩ := h index hi hp hl
  exact ⟨hsub hmem, hv.mono hP hsub⟩

theorem collectPml4_visits : Visits (collectPml4 mem)
    (Below mem (fun _ => false) (Below mem isLarge (Below mem isLarge fun _ _ => True))) := by
  have hnone : Visits (fun _ pages => Except.ok (ε := Stop) pages) fun _ _ => True :=
    ⟨fun h => by obtain rfl := Except.ok.inj h; exact List.Subset.refl _, fun _ => trivial,
      fun _ _ => trivial, fun h => by cases h⟩
  exact collectTable_visits (collectTable_visits (collectTable_visits hnone))

theorem collectActivePageTables_error {e : Stop} (h : collectActivePageTables mem cr3 = .error e) :
    e = .panic .tooManyActivePageTablePages := by
  rcases bind_error h with hadd | ⟨pages₁, -, hwalk⟩
  · exact addReservedTablePage_error hadd
  · exact collectPml4_visits.error hwalk

/-- Every page-table page of the active root is collected. -/
theorem collectActivePageTables_complete (h : collectActivePageTables mem cr3 = .ok pages)
    {level : ℕ} (ht : TablePage mem (activePml4 cr3) level table) : table ∈ pages := by
  obtain ⟨pages₁, hadd, hwalk⟩ := bind_ok h
  have hroot : activePml4 cr3 ∈ pages := collectPml4_visits.grows hwalk (addReservedTablePage_spec hadd).1
  have hall := collectPml4_visits.achieves hwalk
  -- Each level hands the next one what is still to be visited below it.
  have hlevel : ∀ {level table}, TablePage mem (activePml4 cr3) level table → table ∈ pages ∧
      (level = 4 → table = activePml4 cr3) ∧
      (level = 3 → Below mem isLarge (Below mem isLarge fun _ _ => True) table pages) ∧
      (level = 2 → Below mem isLarge (fun _ _ => True) table pages) ∧ level ≤ 4 := by
    intro level table ht
    induction ht with
    | root => exact ⟨hroot, fun _ => rfl, by simp, by simp, le_rfl⟩
    | @next level table index _ hi hp hl ih =>
      obtain ⟨-, hih₄, hih₃, hih₂, hle⟩ := ih
      have hcases : level = 0 ∨ level = 1 ∨ level = 2 := by omega
      rcases hcases with rfl | rfl | rfl
      · have hlarge := hl.resolve_left (by omega)
        exact ⟨(hih₂ rfl index hi hp hlarge).1, by simp, by simp, by simp, by omega⟩
      · have hlarge := hl.resolve_left (by omega)
        obtain ⟨hmem, hbelow⟩ := hih₃ rfl index hi hp hlarge
        exact ⟨hmem, by simp, by simp, fun _ => hbelow, by omega⟩
      · obtain rfl := hih₄ rfl
        obtain ⟨hmem, hbelow⟩ := hall index hi hp rfl
        exact ⟨hmem, by simp, fun _ => hbelow, by simp, by omega⟩
  exact (hlevel ht).1

end

end Tianole.Mm
