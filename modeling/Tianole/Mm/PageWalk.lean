import Tianole.Mm.PageMap

/-! `virt_to_phys`, `map_page` and `unmap_page` against the walk of the processor, for any
active page table. -/
namespace Tianole.Mm
open Memory Bits Radix Runs

/-! ### The words of a walk -/

section
variable (mem : Mem) (pml4 virt : ℕ)

/-- The entries that `page_entry` meets, whether or not they name tables. -/
def pml4Entry : ℕ := tableWord mem pml4 (tableIndex virt 39)
def pdptEntry : ℕ := tableWord mem (entryTable (pml4Entry mem pml4 virt)) (tableIndex virt 30)
def pdEntry : ℕ := tableWord mem (entryTable (pdptEntry mem pml4 virt)) (tableIndex virt 21)
def ptEntry : ℕ := tableWord mem (entryTable (pdEntry mem pml4 virt)) (tableIndex virt 12)

/-- The walk meets a leaf of 1 GiB. -/
def HugeLeaf : Prop := isPresent (pml4Entry mem pml4 virt) = true ∧
  isPresent (pdptEntry mem pml4 virt) = true ∧ isLarge (pdptEntry mem pml4 virt) = true

/-- The walk meets a leaf of 2 MiB. -/
def LargeLeaf : Prop := isPresent (pml4Entry mem pml4 virt) = true ∧
  isPresent (pdptEntry mem pml4 virt) = true ∧ isLarge (pdptEntry mem pml4 virt) = false ∧
  isPresent (pdEntry mem pml4 virt) = true ∧ isLarge (pdEntry mem pml4 virt) = true

/-- The contents of the large page where `page_entry` goes on are, by chance, a table of the
walk whose entry maps the page to the place in the large page. -/
def HugeAlias : Prop := HugeLeaf mem pml4 virt ∧ isPresent (pdEntry mem pml4 virt) = true ∧
  isPresent (ptEntry mem pml4 virt) = true ∧
  leafAddress 12 (ptEntry mem pml4 virt) virt = leafAddress 30 (pdptEntry mem pml4 virt) virt ∧
  entryTable (pdEntry mem pml4 virt) ∈ walkTables mem pml4 virt

def LargeAlias : Prop := LargeLeaf mem pml4 virt ∧ isPresent (ptEntry mem pml4 virt) = true ∧
  leafAddress 12 (ptEntry mem pml4 virt) virt = leafAddress 21 (pdEntry mem pml4 virt) virt ∧
  entryTable (pdEntry mem pml4 virt) ∈ walkTables mem pml4 virt

end

/-- A word in a page. -/
def InPage (page a : ℕ) : Prop := page ≤ a ∧ a + 8 ≤ page + pageSize

/-- A word of a table of the walk, or of a page that `alloc_page` provided for one. -/
def OnWalk (st : PageTables) (virt : ℕ) (supply : List ℕ) (a : ℕ) : Prop :=
  ∃ t, (t ∈ walkTables st.mem st.root virt ∨ t ∈ supply ∧ t ≠ 0) ∧ InPage t a

/-- Answers of `alloc_page`: distinct physical pages that are no tables of the walk. -/
structure SpareFor (st : PageTables) (virt : ℕ) (supply : List ℕ) : Prop where
  nodup : (supply.filter (· ≠ 0)).Nodup
  aligned : ∀ page ∈ supply, page ≠ 0 → pageSize ∣ page
  fresh : ∀ page ∈ supply, page ≠ 0 → page ∉ walkTables st.mem st.root virt

namespace PageTables

def clearLog (st : PageTables) : PageTables := { st with written := [] }

/-- `virt_to_phys` is the translation of the processor. -/
structure Agrees (st : PageTables) (virt : ℕ) : Prop where
  translated : ∀ p, virtToPhys st virt true = .ok p ↔ hardwareWalk st.mem st.root virt = some p
  unmapped : hardwareWalk st.mem st.root virt = none → virtToPhys st virt true = .error (-enoent)

/-- `map_page` and `unmap_page` of the page of `virt` write to words of its walk only. -/
structure WritesOnWalk (st : PageTables) (virt : ℕ) : Prop where
  map : ∀ phys flags supply, SpareFor st virt supply → ∀ a ∈ (mapPage (st.clearLog.withSupply supply)
    (virt / pageSize * pageSize) phys flags).1.written, OnWalk st virt supply a
  unmap : ∀ a ∈ (unmapPage st.clearLog (virt / pageSize * pageSize)).1.written, OnWalk st virt [] a

end PageTables

section
variable {st : PageTables} {virt : ℕ}

theorem findEntry_words (st : PageTables) (virt : ℕ) : findEntry st.mem st.root virt =
    if isPresent (pml4Entry st.mem st.root virt) = true ∧
        isPresent (pdptEntry st.mem st.root virt) = true ∧
        isPresent (pdEntry st.mem st.root virt) = true then
      .ok (entryTable (pdEntry st.mem st.root virt) + 8 * tableIndex virt 12)
    else .error (-enoent) := by
  unfold findEntry pdEntry pdptEntry pml4Entry
  cases h₄ : isPresent (tableWord st.mem st.root (tableIndex virt 39)) with
  | false => simp
  | true =>
    cases h₃ : isPresent (tableWord st.mem (entryTable (tableWord st.mem st.root
        (tableIndex virt 39))) (tableIndex virt 30)) with
    | false => simp [h₃]
    | true =>
      cases h₂ : isPresent (tableWord st.mem (entryTable (tableWord st.mem (entryTable
        (tableWord st.mem st.root (tableIndex virt 39))) (tableIndex virt 30)))
        (tableIndex virt 21)) <;> simp [h₃, h₂]

theorem leafAddress_page (e virt : ℕ) :
    (e &&& x86PageMask) ||| (virt &&& (pageSize - 1)) = leafAddress 12 e virt := by
  rw [leafAddress, x86PageMask_eq, land_pageOffset]
  rfl

theorem virtToPhys_words (st : PageTables) (virt : ℕ) : virtToPhys st virt true =
    if isPresent (pml4Entry st.mem st.root virt) = true ∧
        isPresent (pdptEntry st.mem st.root virt) = true ∧
        isPresent (pdEntry st.mem st.root virt) = true ∧
        isPresent (ptEntry st.mem st.root virt) = true then
      .ok (leafAddress 12 (ptEntry st.mem st.root virt) virt)
    else .error (-enoent) := by
  rw [virtToPhys, if_neg (by simp), findEntry_words]
  by_cases hall : isPresent (pml4Entry st.mem st.root virt) = true ∧
      isPresent (pdptEntry st.mem st.root virt) = true ∧
      isPresent (pdEntry st.mem st.root virt) = true
  · have hload : load st.mem (entryTable (pdEntry st.mem st.root virt) + 8 * tableIndex virt 12) 8 =
        ptEntry st.mem st.root virt := rfl
    rw [if_pos hall]
    simp only [hload, leafAddress_page]
    obtain ⟨h₄, h₃, h₂⟩ := hall
    cases h₁ : isPresent (ptEntry st.mem st.root virt) <;> simp [h₄, h₃, h₂]
  · rw [if_neg hall, if_neg fun h => hall ⟨h.1, h.2.1, h.2.2.1⟩]

theorem hardwareWalk_words (mem : Mem) (pml4 virt : ℕ) : hardwareWalk mem pml4 virt =
    if isPresent (pml4Entry mem pml4 virt) = false then none
    else if isPresent (pdptEntry mem pml4 virt) = false then none
    else if isLarge (pdptEntry mem pml4 virt) then some (leafAddress 30 (pdptEntry mem pml4 virt) virt)
    else if isPresent (pdEntry mem pml4 virt) = false then none
    else if isLarge (pdEntry mem pml4 virt) then some (leafAddress 21 (pdEntry mem pml4 virt) virt)
    else if isPresent (ptEntry mem pml4 virt) = false then none
    else some (leafAddress 12 (ptEntry mem pml4 virt) virt) := rfl

theorem walkTables_words (mem : Mem) (pml4 virt : ℕ) : walkTables mem pml4 virt =
    pml4 :: if isPresent (pml4Entry mem pml4 virt) = false then []
      else entryTable (pml4Entry mem pml4 virt) ::
        if isPresent (pdptEntry mem pml4 virt) = false ∨ isLarge (pdptEntry mem pml4 virt) = true then []
        else entryTable (pdptEntry mem pml4 virt) ::
          if isPresent (pdEntry mem pml4 virt) = false ∨ isLarge (pdEntry mem pml4 virt) = true then []
          else [entryTable (pdEntry mem pml4 virt)] := rfl

/-- Where the two walks agree: a large leaf must be matched by what `page_entry` reads in its
place. -/
theorem agrees_iff : st.Agrees virt ↔
    (HugeLeaf st.mem st.root virt → isPresent (pdEntry st.mem st.root virt) = true ∧
      isPresent (ptEntry st.mem st.root virt) = true ∧
      leafAddress 12 (ptEntry st.mem st.root virt) virt =
        leafAddress 30 (pdptEntry st.mem st.root virt) virt) ∧
    (LargeLeaf st.mem st.root virt → isPresent (ptEntry st.mem st.root virt) = true ∧
      leafAddress 12 (ptEntry st.mem st.root virt) virt =
        leafAddress 21 (pdEntry st.mem st.root virt) virt) := by
  have hagree : st.Agrees virt ↔ virtToPhys st virt true =
      (hardwareWalk st.mem st.root virt).elim (.error (-enoent)) .ok := by
    cases hw : hardwareWalk st.mem st.root virt with
    | none =>
      refine ⟨fun h => h.unmapped hw, fun h => ⟨fun p => ?_, fun _ => h⟩⟩
      rw [h, hw]
      simp
    | some q =>
      refine ⟨fun h => (h.translated q).mpr hw, fun h => ⟨fun p => ?_, fun hn => ?_⟩⟩
      · rw [h, hw]
        simp
      · rw [hw] at hn
        cases hn
  rw [hagree, virtToPhys_words, hardwareWalk_words, HugeLeaf, LargeLeaf]
  cases isPresent (pml4Entry st.mem st.root virt) <;>
    cases isPresent (pdptEntry st.mem st.root virt) <;>
    cases isLarge (pdptEntry st.mem st.root virt) <;>
    cases isPresent (pdEntry st.mem st.root virt) <;>
    cases isLarge (pdEntry st.mem st.root virt) <;>
    cases isPresent (ptEntry st.mem st.root virt) <;> simp

/-! ### What is written -/

theorem tableIndex_floor (k : ℕ) :
    tableIndex (virt / pageSize * pageSize) (12 + k) = tableIndex virt (12 + k) := by
  rw [tableIndex_page, tableIndex_page, Nat.mul_div_cancel _ (by decide)]

/-- The words of a walk depend on the page only. -/
theorem words_floor (mem : Mem) (pml4 virt : ℕ) :
    pml4Entry mem pml4 (virt / pageSize * pageSize) = pml4Entry mem pml4 virt ∧
      pdptEntry mem pml4 (virt / pageSize * pageSize) = pdptEntry mem pml4 virt ∧
      pdEntry mem pml4 (virt / pageSize * pageSize) = pdEntry mem pml4 virt ∧
      ptEntry mem pml4 (virt / pageSize * pageSize) = ptEntry mem pml4 virt := by
  have h₄ : pml4Entry mem pml4 (virt / pageSize * pageSize) = pml4Entry mem pml4 virt :=
    congrArg (tableWord mem pml4) (tableIndex_floor 27)
  have h₃ : pdptEntry mem pml4 (virt / pageSize * pageSize) = pdptEntry mem pml4 virt := by
    rw [pdptEntry, pdptEntry, h₄]
    exact congrArg (tableWord mem _) (tableIndex_floor 18)
  have h₂ : pdEntry mem pml4 (virt / pageSize * pageSize) = pdEntry mem pml4 virt := by
    rw [pdEntry, pdEntry, h₃]
    exact congrArg (tableWord mem _) (tableIndex_floor 9)
  refine ⟨h₄, h₃, h₂, ?_⟩
  rw [ptEntry, ptEntry, h₂]
  exact congrArg (tableWord mem _) (tableIndex_floor 0)

theorem walkTables_dvd {t : ℕ} (h : t ∈ walkTables st.mem st.root virt) : pageSize ∣ t := by
  have hroot : pageSize ∣ st.root := entryTable_dvd st.cr3
  rw [walkTables_words] at h
  rcases List.mem_cons.mp h with rfl | h
  · exact hroot
  · split at h
    · cases h
    · rcases List.mem_cons.mp h with rfl | h
      · exact entryTable_dvd _
      · split at h
        · cases h
        · rcases List.mem_cons.mp h with rfl | h
          · exact entryTable_dvd _
          · split at h
            · cases h
            · rw [List.mem_singleton.mp h]
              exact entryTable_dvd _

/-- A word of one page is on the walk when the page is. -/
theorem onWalk_iff {t i : ℕ} (ht : pageSize ∣ t) (hi : i < 512) :
    OnWalk st virt [] (t + 8 * i) ↔ t ∈ walkTables st.mem st.root virt := by
  constructor
  · rintro ⟨t', ht', hin⟩
    have hmem : t' ∈ walkTables st.mem st.root virt := by simpa using ht'
    have hdvd := walkTables_dvd hmem
    have heq : t' = t := by
      simp only [InPage, pageSize] at *
      omega
    rwa [← heq]
  · intro hmem
    refine ⟨t, .inl hmem, ?_⟩
    simp only [InPage, pageSize]
    omega

/-- `unmap_page` clears the word that `page_entry` finds, if it is present. -/
theorem unmapPage_written (st : PageTables) (virt : ℕ) :
    (unmapPage st.clearLog (virt / pageSize * pageSize)).1.written =
      if isPresent (pml4Entry st.mem st.root virt) = true ∧
          isPresent (pdptEntry st.mem st.root virt) = true ∧
          isPresent (pdEntry st.mem st.root virt) = true ∧
          isPresent (ptEntry st.mem st.root virt) = true then
        [entryTable (pdEntry st.mem st.root virt) + 8 * tableIndex virt 12] else [] := by
  have haligned : ¬ (virt / pageSize * pageSize) &&& (pageSize - 1) ≠ 0 := by
    rw [land_pageOffset_of_dvd (Nat.dvd_mul_left _ _)]
    simp
  obtain ⟨h₄, h₃, h₂, h₁⟩ := words_floor st.mem st.root virt
  have hindex : tableIndex (virt / pageSize * pageSize) 12 = tableIndex virt 12 := tableIndex_floor 0
  have hfind := findEntry_words st (virt / pageSize * pageSize)
  rw [h₄, h₃, h₂, hindex] at hfind
  rw [unmapPage, if_neg haligned]
  have hmem : findEntry st.clearLog.mem st.clearLog.root (virt / pageSize * pageSize) =
      findEntry st.mem st.root (virt / pageSize * pageSize) := rfl
  rw [hmem, hfind]
  by_cases hall : isPresent (pml4Entry st.mem st.root virt) = true ∧
      isPresent (pdptEntry st.mem st.root virt) = true ∧
      isPresent (pdEntry st.mem st.root virt) = true
  · rw [if_pos hall]
    have hload : load st.clearLog.mem (entryTable (pdEntry st.mem st.root virt) +
        8 * tableIndex virt 12) 8 = ptEntry st.mem st.root virt := rfl
    simp only [hload]
    obtain ⟨h₄, h₃, h₂⟩ := hall
    cases h₁ : isPresent (ptEntry st.mem st.root virt) <;>
      simp [h₄, h₃, h₂, PageTables.clearLog, PageTables.setWord]
  · rw [if_neg hall, if_neg fun h => hall ⟨h.1, h.2.1, h.2.2.1⟩]
    rfl

end

/-! ### New tables -/

/-- Everything written so far lies in `R`, and so do the pages that are still to come. -/
structure WritesIn (R : ℕ → Prop) (st : PageTables) : Prop where
  written : ∀ a ∈ st.written, R a
  nodup : (st.supply.filter (· ≠ 0)).Nodup
  supply : ∀ page ∈ st.supply, page ≠ 0 → pageSize ∣ page ∧ ∀ a, InPage page a → R a

/-- A call returned a table whose words lie in `R` and which is not among the pages to come. -/
structure TableIn (R : ℕ → Prop) (st : PageTables) (t : ℕ) : Prop where
  words : ∀ a, InPage (t * pageSize) a → R a
  apart : ∀ page ∈ st.supply, page ≠ 0 → page ≠ t * pageSize

/-- A call that ended in a new, empty table, or ran out of memory. -/
structure NewTable (R : ℕ → Prop) (r : PageTables × Except ℤ ℕ) : Prop where
  writes : WritesIn R r.1
  table : ∀ table, r.2 = .ok table → ∃ t, table = t * pageSize ∧ TableIn R r.1 t ∧
    ∀ i, frameWord r.1.mem t i = 0

section
variable {R : ℕ → Prop} {st : PageTables} {t : ℕ} {i : Fin 512} {r : PageTables × Except ℤ ℕ}

theorem inPage_word (t : ℕ) (i : Fin 512) : InPage (t * pageSize) (t * pageSize + 8 * i) := by
  have hi := i.isLt
  simp only [InPage, pageSize]
  omega

theorem ensureNextTable_new (hw : WritesIn R st) (ht : TableIn R st t)
    (habsent : isPresent (frameWord st.mem t i) = false) :
    NewTable R (ensureNextTable st (t * pageSize) i) := by
  have hword : tableWord st.mem (t * pageSize) i = frameWord st.mem t i := rfl
  unfold ensureNextTable
  rw [hword, habsent]
  simp only [Bool.false_eq_true, if_false]
  have htake : WritesIn R st.takePage.1 :=
    ⟨hw.written, hw.nodup.sublist ((List.tail_sublist _).filter _),
      fun page hp => hw.supply page (List.mem_of_mem_tail hp)⟩
  by_cases hpage : st.takePage.2 = 0
  · rw [if_pos hpage]
    exact ⟨htake, fun table htable => by cases htable⟩
  · rw [if_neg hpage]
    obtain ⟨page, rest, hsupply⟩ : ∃ page rest, st.supply = page :: rest := by
      cases hsup : st.supply with
      | nil => simp [PageTables.takePage, hsup] at hpage
      | cons page rest => exact ⟨page, rest, rfl⟩
    have hhead : st.takePage.2 = page := by simp [PageTables.takePage, hsupply]
    have hrest : st.takePage.1.supply = rest := by simp [PageTables.takePage, hsupply]
    rw [hhead] at hpage ⊢
    have hmem : page ∈ st.supply := by rw [hsupply]; simp
    obtain ⟨⟨f, rfl⟩, hR⟩ := hw.supply page hmem hpage
    rw [Nat.mul_comm] at hsupply hpage hmem hR ⊢
    have hclear := clearPage_cleared st.takePage.1 f
    generalize clearPage st.takePage.1 (f * pageSize) = st₁ at hclear ⊢
    have hfirst : f * pageSize ∉ rest := by
      have hnd := hw.nodup
      rw [hsupply, List.filter_cons_of_pos (by simpa using hpage), List.nodup_cons] at hnd
      exact fun hm => hnd.1 (List.mem_filter.mpr ⟨hm, by simpa using hpage⟩)
    have hne : f ≠ t := fun he => ht.apart _ hmem hpage (by rw [he])
    have hsup : (st₁.setWord (t * pageSize + 8 * i) (makeTableEntry (f * pageSize))).supply = rest :=
      hclear.supply.trans hrest
    refine ⟨⟨fun a ha => ?_, ?_, ?_⟩, fun table htable => ?_⟩
    · rcases List.mem_cons.mp ha with rfl | ha
      · exact ht.words _ (inPage_word t i)
      · rcases hclear.written a ha with ha | ha
        · exact hw.written a ha
        · exact hR a ha
    · rw [hsup, ← hrest]
      exact htake.nodup
    · rw [hsup, ← hrest]
      exact htake.supply
    · obtain rfl := Except.ok.inj htable
      refine ⟨f, rfl, ⟨hR, fun page hp _ he => hfirst ?_⟩, fun j => ?_⟩
      · rw [hsup] at hp
        rwa [← he]
      · exact (frameWord_store_of_ne (.inl hne)).trans (hclear.zero j j.isLt)

/-- Behind a new table the next one is new, too. -/
theorem NewTable.next (h : NewTable R r) :
    NewTable R (withTable r fun st table => ensureNextTable st table i) := by
  obtain ⟨st, table | table⟩ := r
  · exact ⟨h.writes, fun table htable => by cases htable⟩
  · obtain ⟨t, rfl, ht, hzero⟩ := h.table table rfl
    refine ensureNextTable_new h.writes ht ?_
    rw [hzero]
    rfl

/-- The last step of `page_entry`. -/
theorem NewTable.entry (h : NewTable R r) :
    (∀ a ∈ (withTable r fun st pt => (st, .ok (pt + 8 * i))).1.written, R a) ∧
      ∀ entry, (withTable r fun st pt => (st, .ok (pt + 8 * i))).2 = .ok entry → R entry := by
  obtain ⟨st, table | table⟩ := r
  · exact ⟨h.writes.written, fun entry hentry => by cases hentry⟩
  · refine ⟨h.writes.written, fun entry hentry => ?_⟩
    obtain ⟨t, rfl, ht, -⟩ := h.table table rfl
    obtain rfl := Except.ok.inj hentry
    exact ht.words _ (inPage_word t i)

theorem ensureNextTable_pml4 {virt : ℕ} (h : isPresent (pml4Entry st.mem st.root virt) = true) :
    ensureNextTable st st.root (tableIndex virt 39) =
      (st, .ok (entryTable (pml4Entry st.mem st.root virt))) := if_pos h

theorem ensureNextTable_pdpt {virt : ℕ} (h : isPresent (pdptEntry st.mem st.root virt) = true) :
    ensureNextTable st (entryTable (pml4Entry st.mem st.root virt)) (tableIndex virt 30) =
      (st, .ok (entryTable (pdptEntry st.mem st.root virt))) := if_pos h

theorem ensureNextTable_pd {virt : ℕ} (h : isPresent (pdEntry st.mem st.root virt) = true) :
    ensureNextTable st (entryTable (pdptEntry st.mem st.root virt)) (tableIndex virt 21) =
      (st, .ok (entryTable (pdEntry st.mem st.root virt))) := if_pos h

/-- Where all tables seem to exist, `page_entry` changes nothing. -/
theorem createEntry_of_present {virt : ℕ} (h₄ : isPresent (pml4Entry st.mem st.root virt) = true)
    (h₃ : isPresent (pdptEntry st.mem st.root virt) = true)
    (h₂ : isPresent (pdEntry st.mem st.root virt) = true) : createEntry st virt =
    (st, .ok (entryTable (pdEntry st.mem st.root virt) + 8 * tableIndex virt 12)) := by
  rw [createEntry, ensureNextTable_pml4 h₄, withTable, ensureNextTable_pdpt h₃, withTable,
    ensureNextTable_pd h₂, withTable]

/-- The next table behind a word that is absent. -/
theorem ensureNextTable_absent {e virt shift : ℕ} (hw : WritesIn R st)
    (ht : TableIn R st (entryTable e / pageSize))
    (h : isPresent (tableWord st.mem (entryTable e) (tableIndex virt shift)) = false) :
    NewTable R (ensureNextTable st (entryTable e) (tableIndex virt shift)) := by
  have habsent : isPresent (frameWord st.mem (entryTable e / pageSize) (indexAt virt shift)) =
      false := by
    rw [frameWord, entryTable_frame]
    exact h
  have hnew := ensureNextTable_new hw ht habsent
  rw [entryTable_frame] at hnew
  exact hnew

/-- `page_entry` writes in `R` when the tables that exist on its way lie there. -/
theorem createEntry_writes {virt : ℕ} (hw : WritesIn R st) (hroot : TableIn R st st.frame)
    (h₄ : isPresent (pml4Entry st.mem st.root virt) = true →
      TableIn R st (entryTable (pml4Entry st.mem st.root virt) / pageSize))
    (h₃ : isPresent (pml4Entry st.mem st.root virt) = true →
      isPresent (pdptEntry st.mem st.root virt) = true →
      TableIn R st (entryTable (pdptEntry st.mem st.root virt) / pageSize))
    (h₂ : isPresent (pml4Entry st.mem st.root virt) = true →
      isPresent (pdptEntry st.mem st.root virt) = true →
      isPresent (pdEntry st.mem st.root virt) = true →
      TableIn R st (entryTable (pdEntry st.mem st.root virt) / pageSize)) :
    (∀ a ∈ (createEntry st virt).1.written, R a) ∧
      ∀ entry, (createEntry st virt).2 = .ok entry → R entry := by
  have hlast {r : PageTables × Except ℤ ℕ} (h : NewTable R r) := h.entry (i := indexAt virt 12)
  unfold createEntry
  cases hp₄ : isPresent (pml4Entry st.mem st.root virt) with
  | false =>
    rw [← withTable_assoc, ← withTable_assoc]
    exact hlast (NewTable.next (i := indexAt virt 21) (NewTable.next (i := indexAt virt 30)
      (ensureNextTable_absent (e := st.cr3) hw hroot hp₄)))
  | true =>
    rw [ensureNextTable_pml4 hp₄, withTable]
    cases hp₃ : isPresent (pdptEntry st.mem st.root virt) with
    | false =>
      rw [← withTable_assoc]
      exact hlast (NewTable.next (i := indexAt virt 21) (ensureNextTable_absent hw (h₄ hp₄) hp₃))
    | true =>
      rw [ensureNextTable_pdpt hp₃, withTable]
      cases hp₂ : isPresent (pdEntry st.mem st.root virt) with
      | false => exact hlast (ensureNextTable_absent hw (h₃ hp₄ hp₃) hp₂)
      | true =>
        rw [ensureNextTable_pd hp₂, withTable]
        refine ⟨hw.written, fun entry hentry => ?_⟩
        obtain rfl := Except.ok.inj hentry
        have hin := (h₂ hp₄ hp₃ hp₂).words _ (inPage_word _ (indexAt virt 12))
        rw [entryTable_frame] at hin
        exact hin

end

/-! ### The comparison -/

section
variable {st : PageTables} {virt : ℕ}

theorem mapPage_written {R : ℕ → Prop} {phys flags : ℕ} (h : (∀ a ∈ (createEntry st virt).1.written, R a) ∧
    ∀ entry, (createEntry st virt).2 = .ok entry → R entry) (hw : ∀ a ∈ st.written, R a) :
    ∀ a ∈ (mapPage st virt phys flags).1.written, R a := by
  unfold mapPage
  split
  · exact hw
  · obtain ⟨hwritten, hentry⟩ := h
    generalize createEntry st virt = r at *
    obtain ⟨st', ret | entry⟩ := r
    · exact hwritten
    · simp only
      split
      · exact hwritten
      · intro a ha
        rcases List.mem_cons.mp ha with rfl | ha
        · exact hentry a rfl
        · exact hwritten a ha

/-- Without a large leaf `map_page` stays on the walk. -/
theorem map_onWalk {supply : List ℕ} {phys flags : ℕ} (hs : SpareFor st virt supply)
    (hhuge : ¬ HugeLeaf st.mem st.root virt) (hlarge : ¬ LargeLeaf st.mem st.root virt) :
    ∀ a ∈ (mapPage (st.clearLog.withSupply supply) (virt / pageSize * pageSize) phys flags).1.written,
      OnWalk st virt supply a := by
  obtain ⟨hf₄, hf₃, hf₂, -⟩ := words_floor st.mem st.root virt
  have hmem : (st.clearLog.withSupply supply).mem = st.mem := rfl
  have hroot : (st.clearLog.withSupply supply).root = st.root := rfl
  have hempty : ∀ a ∈ (st.clearLog.withSupply supply).written, OnWalk st virt supply a := by
    intro a ha
    cases ha
  have hon {t : ℕ} (ht : t ∈ walkTables st.mem st.root virt) :
      TableIn (OnWalk st virt supply) (st.clearLog.withSupply supply) (t / pageSize) := by
    have hdiv : t / pageSize * pageSize = t := Nat.div_mul_cancel (walkTables_dvd ht)
    refine ⟨fun a ha => ⟨t, .inl ht, hdiv ▸ ha⟩, fun page hp h0 he => hs.fresh page hp h0 ?_⟩
    rwa [he, hdiv]
  have hwalk := walkTables_words st.mem st.root virt
  refine mapPage_written (createEntry_writes ?_ ?_ ?_ ?_ ?_) hempty
  · exact ⟨hempty, hs.nodup, fun page hp h0 => ⟨hs.aligned page hp h0,
      fun a ha => ⟨page, .inr ⟨hp, h0⟩, ha⟩⟩⟩
  · exact hon (by rw [hwalk]; exact List.mem_cons_self)
  · rw [hmem, hroot, hf₄]
    intro h₄
    exact hon (by rw [hwalk]; simp [h₄])
  · rw [hmem, hroot, hf₄, hf₃]
    intro h₄ h₃
    have hl₃ : isLarge (pdptEntry st.mem st.root virt) = false :=
      Bool.eq_false_iff.mpr fun hl => hhuge ⟨h₄, h₃, hl⟩
    exact hon (by rw [hwalk]; simp [h₄, h₃, hl₃])
  · rw [hmem, hroot, hf₄, hf₃, hf₂]
    intro h₄ h₃ h₂
    have hl₃ : isLarge (pdptEntry st.mem st.root virt) = false :=
      Bool.eq_false_iff.mpr fun hl => hhuge ⟨h₄, h₃, hl⟩
    have hl₂ : isLarge (pdEntry st.mem st.root virt) = false :=
      Bool.eq_false_iff.mpr fun hl => hlarge ⟨h₄, h₃, hl₃, h₂, hl⟩
    exact hon (by rw [hwalk]; simp [h₄, h₃, hl₃, h₂, hl₂])

/-- Where `page_entry` finds a present entry, `map_page` writes nothing. -/
theorem map_nothing {supply : List ℕ} {phys flags : ℕ}
    (h₄ : isPresent (pml4Entry st.mem st.root virt) = true)
    (h₃ : isPresent (pdptEntry st.mem st.root virt) = true)
    (h₂ : isPresent (pdEntry st.mem st.root virt) = true)
    (h₁ : isPresent (ptEntry st.mem st.root virt) = true) :
    (mapPage (st.clearLog.withSupply supply) (virt / pageSize * pageSize) phys flags).1.written = [] := by
  obtain ⟨hf₄, hf₃, hf₂, hf₁⟩ := words_floor st.mem st.root virt
  have hcreate : createEntry (st.clearLog.withSupply supply) (virt / pageSize * pageSize) =
      (st.clearLog.withSupply supply, .ok (entryTable (pdEntry st.mem st.root virt) +
        8 * tableIndex (virt / pageSize * pageSize) 12)) := by
    rw [← hf₄] at h₄
    rw [← hf₃] at h₃
    rw [← hf₂] at h₂ ⊢
    exact @createEntry_of_present (st.clearLog.withSupply supply) _ h₄ h₃ h₂
  have hload : load (st.clearLog.withSupply supply).mem (entryTable (pdEntry st.mem st.root virt) +
      8 * tableIndex (virt / pageSize * pageSize) 12) 8 = ptEntry st.mem st.root virt := by
    rw [← hf₁, ptEntry, hf₂]
    rfl
  unfold mapPage
  split
  · rfl
  · rw [hcreate]
    simp only [hload, h₁, ↓reduceIte]
    rfl

theorem unmap_onWalk (h : isPresent (pml4Entry st.mem st.root virt) = true →
    isPresent (pdptEntry st.mem st.root virt) = true → isPresent (pdEntry st.mem st.root virt) = true →
    isPresent (ptEntry st.mem st.root virt) = true →
    entryTable (pdEntry st.mem st.root virt) ∈ walkTables st.mem st.root virt) :
    ∀ a ∈ (unmapPage st.clearLog (virt / pageSize * pageSize)).1.written, OnWalk st virt [] a := by
  rw [unmapPage_written]
  split
  · rename_i hall
    intro a ha
    rw [List.mem_singleton.mp ha]
    exact (onWalk_iff (entryTable_dvd _) (indexAt virt 12).isLt).mpr
      (h hall.1 hall.2.1 hall.2.2.1 hall.2.2.2)
  · intro a ha
    cases ha

end

/-- `virt_to_phys`, `map_page` and `unmap_page` follow the walk of the processor at `virt`
exactly when the walk meets no large leaf, or the contents of the large page happen to hold
what hides the difference. -/
theorem page_walk_agrees_iff (st : PageTables) (virt : ℕ) :
    st.Agrees virt ∧ st.WritesOnWalk virt ↔
      (¬ HugeLeaf st.mem st.root virt ∧ ¬ LargeLeaf st.mem st.root virt) ∨
        HugeAlias st.mem st.root virt ∨ LargeAlias st.mem st.root virt := by
  rw [agrees_iff]
  constructor
  · rintro ⟨⟨hhuge, hlarge⟩, -, hunmap⟩
    -- The write of `unmap_page` tells which table it takes for the last one.
    have hlast (h₄ : isPresent (pml4Entry st.mem st.root virt) = true)
        (h₃ : isPresent (pdptEntry st.mem st.root virt) = true)
        (h₂ : isPresent (pdEntry st.mem st.root virt) = true)
        (h₁ : isPresent (ptEntry st.mem st.root virt) = true) :
        entryTable (pdEntry st.mem st.root virt) ∈ walkTables st.mem st.root virt := by
      rw [unmapPage_written, if_pos ⟨h₄, h₃, h₂, h₁⟩] at hunmap
      exact (onWalk_iff (entryTable_dvd _) (indexAt virt 12).isLt).mp
        (hunmap _ (List.mem_singleton.mpr rfl))
    by_cases hh : HugeLeaf st.mem st.root virt
    · obtain ⟨h₂, h₁, haddr⟩ := hhuge hh
      exact .inr (.inl ⟨hh, h₂, h₁, haddr, hlast hh.1 hh.2.1 h₂ h₁⟩)
    · by_cases hl : LargeLeaf st.mem st.root virt
      · obtain ⟨h₁, haddr⟩ := hlarge hl
        exact .inr (.inr ⟨hl, h₁, haddr, hlast hl.1 hl.2.1 hl.2.2.2.1 h₁⟩)
      · exact .inl ⟨hh, hl⟩
  · rintro (⟨hh, hl⟩ | ⟨hh, h₂, h₁, haddr, hmem⟩ | ⟨hl, h₁, haddr, hmem⟩)
    · refine ⟨⟨fun h => absurd h hh, fun h => absurd h hl⟩,
        fun phys flags supply hs => map_onWalk hs hh hl, unmap_onWalk fun h₄ h₃ h₂ _ => ?_⟩
      have hl₃ : isLarge (pdptEntry st.mem st.root virt) = false :=
        Bool.eq_false_iff.mpr fun h => hh ⟨h₄, h₃, h⟩
      have hl₂ : isLarge (pdEntry st.mem st.root virt) = false :=
        Bool.eq_false_iff.mpr fun h => hl ⟨h₄, h₃, hl₃, h₂, h⟩
      rw [walkTables_words]
      simp [h₄, h₃, hl₃, h₂, hl₂]
    · refine ⟨⟨fun _ => ⟨h₂, h₁, haddr⟩, fun h => ?_⟩, fun phys flags supply _ => ?_,
        unmap_onWalk fun _ _ _ _ => hmem⟩
      · have hl₃ := h.2.2.1
        rw [hh.2.2] at hl₃
        cases hl₃
      · rw [map_nothing hh.1 hh.2.1 h₂ h₁]
        simp
    · refine ⟨⟨fun h => ?_, fun _ => ⟨h₁, haddr⟩⟩, fun phys flags supply _ => ?_,
        unmap_onWalk fun _ _ _ _ => hmem⟩
      · have hl₃ := h.2.2
        rw [hl.2.2.1] at hl₃
        cases hl₃
      · rw [map_nothing hl.1 hl.2.1 hl.2.2.2.1 h₁]
        simp

/-- One leaf of 2 MiB, at address 0, to `0x200000`. -/
def largeTables : PageTables :=
  ⟨fun a => (List.lookup a [(0x1000, 0x03), (0x1001, 0x20), (0x2000, 0x03), (0x2001, 0x30),
    (0x3000, 0x83), (0x3002, 0x20)]).getD 0, 0x1000, [], []⟩

/-- The processor translates address 0, and `virt_to_phys` finds no mapping. -/
theorem large_page_not_translated : Canonical 0 ∧
    hardwareWalk largeTables.mem largeTables.root 0 = some 0x200000 ∧
    virtToPhys largeTables 0 true = .error (-enoent) ∧
    ¬ (largeTables.Agrees 0 ∧ largeTables.WritesOnWalk 0) := by
  have hwalk : hardwareWalk largeTables.mem largeTables.root 0 = some 0x200000 := by decide +kernel
  have hcode : virtToPhys largeTables 0 true = .error (-enoent) := by decide +kernel
  refine ⟨.inl (by decide), hwalk, hcode, fun h => ?_⟩
  have htrans := (h.1.translated 0x200000).mpr hwalk
  rw [hcode] at htrans
  cases htrans

/-! ### The kernel's own root -/

/-- The first `n` entries of table `src` have been copied to table `k`. -/
structure Copied (src k n : ℕ) (st st' : PageTables) : Prop where
  other : ∀ t j, t ≠ k → frameWord st'.mem t j = frameWord st.mem t j
  same : ∀ j : Fin 512, j.val < n → frameWord st'.mem k j = frameWord st.mem src j

section
variable {st st' : PageTables} {src k n virt : ℕ}

theorem Copied.step (h : Copied src k n st st') (hne : src ≠ k) (hn : n < 512) :
    Copied src k (n + 1) st
      (st'.setWord (k * pageSize + 8 * n) (tableWord st'.mem (src * pageSize) n)) := by
  refine ⟨fun t j ht => ?_, fun j hj => ?_⟩
  · rw [← h.other t j ht]
    exact frameWord_store_of_ne (i := ⟨n, hn⟩) (.inl ht)
  · by_cases hjn : j = ⟨n, hn⟩
    · rw [hjn, ← h.other src ⟨n, hn⟩ hne]
      have hlt : tableWord st'.mem (src * pageSize) n < 256 ^ 8 := load_lt
      exact frameWord_store_self (by simpa using hlt)
    · have hlt : j.val < n := by
        have hval : j.val ≠ n := fun he => hjn (Fin.ext he)
        omega
      rw [← h.same j hlt]
      exact frameWord_store_of_ne (i := ⟨n, hn⟩) (.inr hjn)

theorem pageTablesInit_copied (hne : st.frame ≠ k) :
    Copied st.frame k 512 st (pageTablesInit st (k * pageSize)) := by
  have hloop (n : ℕ) (hn : n ≤ 512) : Copied st.frame k n st ((List.range n).foldl (fun st' index =>
      st'.setWord (k * pageSize + 8 * index) (tableWord st'.mem (st.frame * pageSize) index)) st) := by
    induction n with
    | zero => exact ⟨fun _ _ _ => rfl, fun j hj => by omega⟩
    | succ n ih =>
      rw [List.range_succ, List.foldl_append, List.foldl_cons, List.foldl_nil]
      exact (ih (by omega)).step hne (by omega)
  have hcopied := hloop 512 le_rfl
  rw [st.root_frame] at hcopied
  simp only [pageTablesInit, x86PageTableEntries]
  generalize (List.range 512).foldl _ st = st' at hcopied
  exact ⟨hcopied.other, hcopied.same⟩

end

end Tianole.Mm
