import Tianole.Lib.BoundedSet
import Tianole.Mm.PageMap

/-! The record of active table pages is exact: `collect_active_page_tables` adds the tables that it
comes to, one after the other, to a set of bounded size, and these are the tables that the processor
can visit. -/
namespace Tianole.Mm
open Memory BoundedSet

/-- A table page that the walk of some address visits. -/
def WalkTable (mem : Mem) (root page : ℕ) : Prop :=
  ∃ virt, Canonical virt ∧ page ∈ walkTables mem root virt

/-! ### The tables in the order in which they are added -/

/-- The table that an entry names, and those below it. -/
def entrySequence (leaf : ℕ → Bool) (below : ℕ → List ℕ) (entry : ℕ) : List ℕ :=
  if isPresent entry = false ∨ leaf entry = true then []
  else entryTable entry :: below (entryTable entry)

def tableSequence (mem : Mem) (leaf : ℕ → Bool) (below : ℕ → List ℕ) (table : ℕ) : List ℕ :=
  (List.range x86PageTableEntries).flatMap fun index =>
    entrySequence leaf below (tableWord mem table index)

def pdSequence (mem : Mem) : ℕ → List ℕ := tableSequence mem isLarge fun _ => []

def pdptSequence (mem : Mem) : ℕ → List ℕ := tableSequence mem isLarge (pdSequence mem)

def pml4Sequence (mem : Mem) : ℕ → List ℕ := tableSequence mem (fun _ => false) (pdptSequence mem)

section
variable {mem : Mem} {cr3 root table page : ℕ} {leaf : ℕ → Bool} {below : ℕ → List ℕ}
  {visit : ℕ → List ℕ → Except Stop (List ℕ)}

theorem addReservedTablePage_eq : addReservedTablePage =
    add maxReservedTablePages (.panic .tooManyActivePageTablePages) := rfl

/-- The loop over a table adds what a visit of each entry adds. -/
theorem collectTable_eq_foldlM (mem : Mem) (leaf : ℕ → Bool)
    (hvisit : ∀ table pages, visit table pages = (below table).foldlM addReservedTablePage pages)
    (table : ℕ) (pages : List ℕ) : collectTable mem leaf visit table pages =
      (tableSequence mem leaf below table).foldlM addReservedTablePage pages := by
  rw [collectTable, tableSequence, foldlM_flatMap]
  congr 1
  funext pages index
  rw [collectEntry, entrySequence]
  split
  · rfl
  · rw [List.foldlM_cons, funext (hvisit (entryTable (tableWord mem table index)))]
    rfl

theorem collectActivePageTables_eq_foldlM (mem : Mem) (cr3 : ℕ) : collectActivePageTables mem cr3 =
    (activePml4 cr3 :: pml4Sequence mem (activePml4 cr3)).foldlM addReservedTablePage [] := by
  have hleaf (_table : ℕ) (pages : List ℕ) :
      (.ok pages : Except Stop (List ℕ)) = [].foldlM addReservedTablePage pages := rfl
  have hpd := collectTable_eq_foldlM mem isLarge hleaf
  have hpdpt := collectTable_eq_foldlM mem isLarge hpd
  have hpml4 := collectTable_eq_foldlM mem (fun _ => false) hpdpt
  rw [List.foldlM_cons]
  exact congrArg ((addReservedTablePage [] _).bind ·) (funext fun pages => hpml4 _ pages)

/-! ### The tables of the processor -/

theorem mem_tableSequence : page ∈ tableSequence mem leaf below table ↔
    ∃ index < 512, isPresent (tableWord mem table index) = true ∧
      leaf (tableWord mem table index) = false ∧
      (page = entryTable (tableWord mem table index) ∨
        page ∈ below (entryTable (tableWord mem table index))) := by
  rw [tableSequence, List.mem_flatMap]
  refine exists_congr fun index => and_congr List.mem_range ?_
  rw [entrySequence]
  cases isPresent (tableWord mem table index) <;> cases leaf (tableWord mem table index) <;> simp

/-- Every choice of indices belongs to an address. -/
theorem exists_canonical {i j k : ℕ} (hi : i < 512) (hj : j < 512) (hk : k < 512) :
    ∃ virt, Canonical virt ∧ tableIndex virt 39 = i ∧ tableIndex virt 30 = j ∧
      tableIndex virt 21 = k := by
  refine ⟨(if i < 256 then 0 else 2 ^ 64 - 2 ^ 48) + i * 2 ^ 39 + j * 2 ^ 30 + k * 2 ^ 21, ?_⟩
  simp only [Canonical, tableIndex_eq]
  split
  · omega
  · omega

theorem tableIndex_lt (virt shift : ℕ) : tableIndex virt shift < 512 := by
  rw [tableIndex_eq]
  exact Nat.mod_lt _ (by decide)

/-- The walk with the indices `i`, `j` and `k` visits `page`. -/
def OnPath (mem : Mem) (root i j k page : ℕ) : Prop :=
  let e4 := tableWord mem root i
  let e3 := tableWord mem (entryTable e4) j
  let e2 := tableWord mem (entryTable e3) k
  page = root ∨ isPresent e4 = true ∧ (page = entryTable e4 ∨
    isPresent e3 = true ∧ isLarge e3 = false ∧ (page = entryTable e3 ∨
      isPresent e2 = true ∧ isLarge e2 = false ∧ page = entryTable e2))

theorem mem_walkTables {virt : ℕ} : page ∈ walkTables mem root virt ↔
    OnPath mem root (tableIndex virt 39) (tableIndex virt 30) (tableIndex virt 21) page := by
  unfold walkTables OnPath
  dsimp only
  generalize tableWord mem root (tableIndex virt 39) = e4
  generalize tableWord mem (entryTable e4) (tableIndex virt 30) = e3
  generalize tableWord mem (entryTable e3) (tableIndex virt 21) = e2
  cases isPresent e4 <;> cases isPresent e3 <;> cases isLarge e3 <;> cases isPresent e2 <;>
    cases isLarge e2 <;> simp

theorem walkTable_iff : WalkTable mem root page ↔
    ∃ i < 512, ∃ j < 512, ∃ k < 512, OnPath mem root i j k page := by
  constructor
  · rintro ⟨virt, -, hpage⟩
    exact ⟨_, tableIndex_lt virt 39, _, tableIndex_lt virt 30, _, tableIndex_lt virt 21,
      mem_walkTables.mp hpage⟩
  · rintro ⟨i, hi, j, hj, k, hk, hpath⟩
    obtain ⟨virt, hcanonical, rfl, rfl, rfl⟩ := exists_canonical hi hj hk
    exact ⟨virt, hcanonical, mem_walkTables.mpr hpath⟩

/-- The tables that are added are those that the processor can visit. -/
theorem mem_sequence_iff : page ∈ root :: pml4Sequence mem root ↔ WalkTable mem root page := by
  have hzero : 0 < 512 := by decide
  rw [walkTable_iff]
  constructor
  · intro hpage
    rcases List.mem_cons.mp hpage with rfl | hpage
    · exact ⟨0, hzero, 0, hzero, 0, hzero, .inl rfl⟩
    · obtain ⟨i, hi, hp₄, -, rfl | hpage⟩ := mem_tableSequence.mp hpage
      · exact ⟨i, hi, 0, hzero, 0, hzero, .inr ⟨hp₄, .inl rfl⟩⟩
      · obtain ⟨j, hj, hp₃, hl₃, rfl | hpage⟩ := mem_tableSequence.mp hpage
        · exact ⟨i, hi, j, hj, 0, hzero, .inr ⟨hp₄, .inr ⟨hp₃, hl₃, .inl rfl⟩⟩⟩
        · obtain ⟨k, hk, hp₂, hl₂, rfl | hpage⟩ := mem_tableSequence.mp hpage
          · exact ⟨i, hi, j, hj, k, hk, .inr ⟨hp₄, .inr ⟨hp₃, hl₃, .inr ⟨hp₂, hl₂, rfl⟩⟩⟩⟩
          · exact absurd hpage List.not_mem_nil
  · rintro ⟨i, hi, j, hj, k, hk, rfl | ⟨hp₄, hpath⟩⟩
    · exact List.mem_cons_self
    · refine List.mem_cons_of_mem _ (mem_tableSequence.mpr ⟨i, hi, hp₄, rfl, ?_⟩)
      rcases hpath with hpage | ⟨hp₃, hl₃, hpath⟩
      · exact .inl hpage
      · refine .inr (mem_tableSequence.mpr ⟨j, hj, hp₃, hl₃, ?_⟩)
        rcases hpath with hpage | ⟨hp₂, hl₂, hpage⟩
        · exact .inl hpage
        · exact .inr (mem_tableSequence.mpr ⟨k, hk, hp₂, hl₂, .inl hpage⟩)

theorem collectActivePageTables_outcome (mem : Mem) (cr3 : ℕ) :
    Outcome maxReservedTablePages (.panic .tooManyActivePageTablePages) []
      (activePml4 cr3 :: pml4Sequence mem (activePml4 cr3)) (collectActivePageTables mem cr3) := by
  rw [collectActivePageTables_eq_foldlM, addReservedTablePage_eq]
  exact foldlM_add .nil (Nat.zero_le _) _

theorem collectActivePageTables_exact {pages : List ℕ}
    (h : collectActivePageTables mem cr3 = .ok pages) :
    pages.Nodup ∧ ∀ page, page ∈ pages ↔ WalkTable mem (activePml4 cr3) page := by
  have houtcome := collectActivePageTables_outcome mem cr3
  rw [h] at houtcome
  cases houtcome with
  | stored hn _ hpages =>
    refine ⟨hn, fun page => ?_⟩
    rw [hpages, ← mem_sequence_iff]
    simp

theorem collectActivePageTables_error_iff (mem : Mem) (cr3 : ℕ) (e : Stop) :
    collectActivePageTables mem cr3 = .error e ↔ e = .panic .tooManyActivePageTablePages ∧
      (maxReservedTablePages : ℕ∞) < {page | WalkTable mem (activePml4 cr3) page}.encard := by
  rw [(collectActivePageTables_outcome mem cr3).error_iff]
  simp only [mem_sequence_iff]

end

/-- For every content of memory: a finished collection holds, without repetition, exactly the tables
that the processor can visit from the active root; it panics exactly if there are more of them than
places; and from the first aligned question on, whatever happens to memory afterwards,
`arch_page_table_uses_page` answers for aligned pages whether they are among them. -/
theorem reserved_tables_exact (mem : Mem) (cr3 : ℕ) :
    (∀ pages, collectActivePageTables mem cr3 = .ok pages →
      pages.Nodup ∧ ∀ page, page ∈ pages ↔ WalkTable mem (activePml4 cr3) page) ∧
    (∀ e, collectActivePageTables mem cr3 = .error e ↔
      e = .panic .tooManyActivePageTablePages ∧
        (maxReservedTablePages : ℕ∞) < {page | WalkTable mem (activePml4 cr3) page}.encard) ∧
    ∀ page record answer, pageSize ∣ page →
      archPageTableUsesPage mem cr3 ⟨[], false⟩ page = .ok (record, answer) →
      (answer = true ↔ WalkTable mem (activePml4 cr3) page) ∧
      ∀ mem' cr3' later, pageSize ∣ later →
        ∃ answer', archPageTableUsesPage mem' cr3' record later = .ok (record, answer') ∧
          (answer' = true ↔ WalkTable mem (activePml4 cr3) later) := by
  refine ⟨fun pages => collectActivePageTables_exact, collectActivePageTables_error_iff mem cr3,
    fun page record answer hpage hfirst => ?_⟩
  rw [archPageTableUsesPage_of_dvd hpage, if_neg Bool.false_ne_true] at hfirst
  obtain ⟨pages, hpages, hanswer⟩ := Runs.map_ok hfirst
  obtain ⟨rfl, rfl⟩ := Prod.mk.inj hanswer
  obtain ⟨-, hexact⟩ := collectActivePageTables_exact hpages
  refine ⟨by rw [decide_eq_true_eq, hexact], fun mem' cr3' later hlater => ?_⟩
  rw [archPageTableUsesPage_of_dvd hlater, if_pos rfl]
  exact ⟨_, rfl, by rw [decide_eq_true_eq, hexact]⟩

end Tianole.Mm
