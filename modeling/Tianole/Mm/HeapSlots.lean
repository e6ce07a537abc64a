import Tianole.Mm.Heap
import Tianole.Mm.MapFailure

/-! The page tables below the PML4 entries of the heap. Below the other entries the firmware's tables
may have any shape: they may have large pages or share tables. -/
namespace Tianole.Mm
open Memory Radix

/-- The first PML4 entry that leads to addresses of the heap. -/
def heapSlot : ℕ := tableIndex heapBase 39

/-- The tables without the PML4 entries below the heap's. -/
def PageTables.heapSlots (st : PageTables) : PageTables :=
  { st with mem := fun a => if st.root ≤ a ∧ a < st.root + 8 * heapSlot then 0 else st.mem a }

section
variable {st st' : PageTables} {p q : List (Fin 512)} {t f v virt phys flags : ℕ} {i j : Fin 512}

@[simp] theorem frame_heapSlots : st.heapSlots.frame = st.frame := rfl

@[simp] theorem supply_heapSlots : st.heapSlots.supply = st.supply := rfl

theorem heapSlot_le (h : heapBase ≤ virt) (hlt : virt < 2 ^ 64) :
    heapSlot ≤ (indexAt virt 39).val := by
  have hslot : heapSlot = 510 := by decide
  have hindex : (indexAt virt 39).val = virt / 2 ^ 39 % 2 ^ 9 := by
    show (virt >>> 39) &&& (2 ^ 9 - 1) = _
    rw [Nat.and_two_pow_sub_one_eq_mod, Nat.shiftRight_eq_div_pow]
  rw [hslot, hindex]
  simp only [heapBase] at h
  omega

/-! ### Words -/

/-- Words that are no PML4 entries below the heap's are as they are. -/
theorem heapSlots_word (h : t ≠ st.frame ∨ heapSlot ≤ i.val) :
    frameWord st.heapSlots.mem t i = frameWord st.mem t i := by
  have hroot := st.root_frame
  have hi := i.isLt
  have hslot : heapSlot = 510 := by decide
  refine load_congr fun x h₁ h₂ => if_neg ?_
  simp only [pageSize] at *
  omega

theorem heapSlots_word_low (h : i.val < heapSlot) : frameWord st.heapSlots.mem st.frame i = 0 := by
  have hroot := st.root_frame
  have hzero : frameWord st.heapSlots.mem st.frame i = load (fun _ => 0) (st.frame * pageSize + 8 * i) 8 := by
    refine load_congr fun x h₁ h₂ => if_pos ?_
    omega
  rw [hzero]
  simp [load]

/-! ### Steps below the heap's entries -/

theorem heapSlots_setWord (h : t ≠ st.frame ∨ heapSlot ≤ i.val) :
    (st.setWord (t * pageSize + 8 * i) v).heapSlots =
      st.heapSlots.setWord (t * pageSize + 8 * i) v := by
  have hroot := st.root_frame
  have hi := i.isLt
  have hslot : heapSlot = 510 := by decide
  have hmem : (st.setWord (t * pageSize + 8 * i) v).heapSlots.mem =
      store st.heapSlots.mem (t * pageSize + 8 * i) 8 v := by
    funext a
    by_cases hlow : st.root ≤ a ∧ a < st.root + 8 * heapSlot
    · rw [store_of_outside (by simp only [pageSize] at *; omega)]
      exact (if_pos hlow).trans (if_pos hlow).symm
    · refine (if_neg hlow).trans (store_apply_congr ?_)
      exact (if_neg hlow).symm
  exact congrArg (fun mem => { st.setWord (t * pageSize + 8 * i) v with mem := mem }) hmem

theorem heapSlots_clearPage (hf : f ≠ st.frame) :
    (clearPage st (f * pageSize)).heapSlots = clearPage st.heapSlots (f * pageSize) := by
  have hloop (n : ℕ) (hn : n ≤ 512) :
      ((List.range n).foldl (fun st index => st.setWord (f * pageSize + 8 * index) 0) st).frame =
        st.frame ∧
      ((List.range n).foldl (fun st index => st.setWord (f * pageSize + 8 * index) 0)
        st).heapSlots = (List.range n).foldl
          (fun st index => st.setWord (f * pageSize + 8 * index) 0) st.heapSlots := by
    induction n with
    | zero => exact ⟨rfl, rfl⟩
    | succ n ih =>
      obtain ⟨hframe, hsame⟩ := ih (by omega)
      simp only [List.range_succ, List.foldl_append, List.foldl_cons, List.foldl_nil]
      rw [← hsame]
      exact ⟨hframe, heapSlots_setWord (i := ⟨n, by omega⟩) (.inl (hframe ▸ hf))⟩
  exact (hloop 512 le_rfl).2

/-- What a step of `page_entry` does is seen below the heap's entries alone, if its word is. -/
theorem heapSlots_ensureNextTable (hs : FreshSupply st.heapSlots)
    (h : t ≠ st.frame ∨ heapSlot ≤ i.val) :
    ensureNextTable st.heapSlots (t * pageSize) i =
      ((ensureNextTable st (t * pageSize) i).1.heapSlots,
        (ensureNextTable st (t * pageSize) i).2) := by
  have hword : tableWord st.heapSlots.mem (t * pageSize) i = tableWord st.mem (t * pageSize) i :=
    heapSlots_word h
  unfold ensureNextTable
  rw [hword]
  split_ifs with hpres
  · rfl
  · by_cases hpage : st.takePage.2 = 0
    · have hpage' : st.heapSlots.takePage.2 = 0 := hpage
      simp only [if_pos hpage, if_pos hpage']
      rfl
    · have hpage' : st.heapSlots.takePage.2 ≠ 0 := hpage
      have hmem : st.takePage.2 ∈ st.heapSlots.supply := by
        change st.supply.headD 0 ∈ st.supply
        cases hsupply : st.supply with
        | nil => simp [PageTables.takePage, hsupply] at hpage
        | cons page rest => exact List.mem_cons_self
      obtain ⟨⟨k, hk⟩, -, hfresh⟩ := hs.fresh _ hmem hpage
      have hne : k ≠ st.frame := by
        rintro rfl
        apply hfresh [] (by decide)
        rw [hk, Nat.mul_div_cancel_left _ (by decide)]
        rfl
      have hframe : (clearPage st.takePage.1 (k * pageSize)).frame = st.frame := by
        rw [PageTables.frame, PageTables.root, (clearPage_cleared st.takePage.1 k).cr3]
        rfl
      have hword : t ≠ (clearPage st.takePage.1 (k * pageSize)).frame ∨ heapSlot ≤ i.val := by
        rwa [hframe]
      have hclear : (clearPage st.takePage.1 (k * pageSize)).heapSlots =
          clearPage st.heapSlots.takePage.1 (k * pageSize) := heapSlots_clearPage hne
      simp only [if_neg hpage, if_neg hpage']
      rw [show st.heapSlots.takePage.2 = st.takePage.2 from rfl, hk, Nat.mul_comm pageSize k,
        heapSlots_setWord hword, hclear]

/-- Below the heap's entries no path leads back to the root. -/
theorem table_ne_frame (ht : TreeTables st.heapSlots) (h : st.heapSlots.tableAt p = some t)
    (hlen : p.length ≤ 3) (hp : p ≠ []) : t ≠ st.frame := by
  rintro rfl
  exact hp (ht.distinct p [] _ hlen (Nat.zero_le _) h rfl)

/-- The tables on a path below the heap's entries, one after the other. -/
theorem heapSlots_ensureTables (ht : TreeTables st.heapSlots) (hs : FreshSupply st.heapSlots)
    (hp : st.heapSlots.tableAt p = some t) (hlen : (p ++ q).length ≤ 3)
    (hslot : ∀ i r, p ++ q = i :: r → heapSlot ≤ i.val) :
    ensureTables st.heapSlots (t * pageSize) q =
      ((ensureTables st (t * pageSize) q).1.heapSlots, (ensureTables st (t * pageSize) q).2) := by
  induction q generalizing st p t with
  | nil => rfl
  | cons i q ih =>
    have hd : p.length < 3 := by
      simp only [List.length_append, List.length_cons] at hlen
      omega
    have happend : p ++ i :: q = (p ++ [i]) ++ q := by simp
    have hword : t ≠ st.frame ∨ heapSlot ≤ i.val := by
      cases p with
      | nil => exact .inr (hslot i q rfl)
      | cons k p => exact .inl (table_ne_frame ht hp hd.le nofun)
    have hstep := heapSlots_ensureNextTable hs hword
    rw [ensureTables, ensureTables, hstep]
    obtain ⟨st', hfeeds, ⟨t', he, hp'⟩ | ⟨he, -⟩⟩ := ensureNextTable_feeds (i := i) ht hs hp hd
    · rw [hstep] at he
      generalize ensureNextTable st (t * pageSize) i = r at he
      obtain ⟨st₁, _⟩ := r
      obtain ⟨rfl, rfl⟩ := Prod.mk.inj he
      exact ih hfeeds.grows.shaped hfeeds.grows.fresh hp' (happend ▸ hlen) (happend ▸ hslot)
    · rw [hstep] at he
      generalize ensureNextTable st (t * pageSize) i = r at he
      obtain ⟨st₁, _⟩ := r
      obtain ⟨rfl, rfl⟩ := Prod.mk.inj he
      rfl

/-- Below the heap's entries the walk is the same. -/
theorem heapSlots_tableAt (ht : TreeTables st.heapSlots) (hlen : p.length ≤ 4)
    (hslot : ∀ i r, p = i :: r → heapSlot ≤ i.val) : st.heapSlots.tableAt p = st.tableAt p := by
  symm
  apply table_congr
  intro q₁ j q₂ t' hsplit ht'
  refine (heapSlots_word ?_).symm
  cases q₁ with
  | nil => exact .inr (hslot j q₂ hsplit)
  | cons k q₁ =>
    rw [hsplit, List.length_append, List.length_cons (a := j)] at hlen
    exact .inl (table_ne_frame ht ht' (by omega) nofun)

/-- The path of an address whose PML4 entry is one of the heap's. -/
theorem slot_of_tablePath (h : heapSlot ≤ (indexAt virt 39).val) (i : Fin 512)
    (r : List (Fin 512)) (hsplit : tablePath virt = i :: r) : heapSlot ≤ i.val := by
  obtain rfl : indexAt virt 39 = i := List.head_eq_of_cons_eq hsplit
  exact h

theorem heapSlots_leafOf (ht : TreeTables st.heapSlots) (h : heapSlot ≤ (indexAt virt 39).val) :
    st.heapSlots.leafOf virt = st.leafOf virt := by
  have htable : st.heapSlots.tableAt (tablePath virt) = st.tableAt (tablePath virt) :=
    heapSlots_tableAt ht (by simp [tablePath]) (slot_of_tablePath h)
  unfold PageTables.leafOf leaf
  rw [show table _ _ st.frame _ = st.tableAt (tablePath virt) from rfl, ← htable]
  apply Option.bind_congr
  intro t hat
  rw [heapSlots_word (.inl (table_ne_frame ht hat le_rfl (List.cons_ne_nil _ _)))]

/-- `map_page` on such an address. -/
theorem heapSlots_mapPage (ht : TreeTables st.heapSlots) (hs : FreshSupply st.heapSlots)
    (h : heapSlot ≤ (indexAt virt 39).val) : mapPage st.heapSlots virt phys flags =
      ((mapPage st virt phys flags).1.heapSlots, (mapPage st virt phys flags).2) := by
  have hcreate : createEntry st.heapSlots virt =
      ((createEntry st virt).1.heapSlots, (createEntry st virt).2) := by
    have htables := heapSlots_ensureTables (p := []) (q := tablePath virt) ht hs rfl le_rfl
      (slot_of_tablePath h)
    rw [frame_heapSlots, st.root_frame] at htables
    rw [createEntry_eq, createEntry_eq, show st.heapSlots.root = st.root from rfl, htables]
    generalize ensureTables st st.root (tablePath virt) = r
    obtain ⟨st₁, _ | _⟩ := r <;> rfl
  obtain ⟨st', hfeeds, ⟨t, he, htable⟩ | ⟨he, -⟩⟩ := createEntry_feeds ht hs virt
  · rw [hcreate] at he
    unfold mapPage
    rw [hcreate]
    generalize createEntry st virt = r at he
    obtain ⟨st₁, _⟩ := r
    obtain ⟨rfl, rfl⟩ := Prod.mk.inj he
    have hne : t ≠ st₁.frame := table_ne_frame hfeeds.grows.shaped htable le_rfl nofun
    have hload : load st₁.heapSlots.mem (t * pageSize + 8 * tableIndex virt 12) 8 =
        load st₁.mem (t * pageSize + 8 * tableIndex virt 12) 8 :=
      heapSlots_word (i := indexAt virt 12) (.inl hne)
    have hset (w : ℕ) : (st₁.setWord (t * pageSize + 8 * tableIndex virt 12) w).heapSlots =
        st₁.heapSlots.setWord (t * pageSize + 8 * tableIndex virt 12) w :=
      heapSlots_setWord (i := indexAt virt 12) (.inl hne)
    dsimp only
    rw [hload]
    split_ifs
    · rfl
    · rfl
    · rw [hset]
  · rw [hcreate] at he
    unfold mapPage
    rw [hcreate]
    generalize createEntry st virt = r at he
    obtain ⟨st₁, _⟩ := r
    obtain ⟨rfl, rfl⟩ := Prod.mk.inj he
    dsimp only
    split_ifs <;> rfl

/-- `unmap_page` on such an address. -/
theorem heapSlots_unmapPage (ht : TreeTables st.heapSlots)
    (h : heapSlot ≤ (indexAt virt 39).val) : unmapPage st.heapSlots virt =
      ((unmapPage st virt).1.heapSlots, (unmapPage st virt).2) := by
  have htable : st.heapSlots.tableAt (tablePath virt) = st.tableAt (tablePath virt) :=
    heapSlots_tableAt ht (by simp [tablePath]) (slot_of_tablePath h)
  unfold unmapPage
  rw [findEntry_eq, findEntry_eq, ← htable]
  cases hat : st.heapSlots.tableAt (tablePath virt) with
  | none =>
    dsimp only [Option.map_none, Option.elim_none]
    split_ifs <;> rfl
  | some t =>
    have hne : t ≠ st.frame := table_ne_frame ht hat le_rfl (List.cons_ne_nil _ _)
    have hload : load st.heapSlots.mem (t * pageSize + 8 * tableIndex virt 12) 8 =
        load st.mem (t * pageSize + 8 * tableIndex virt 12) 8 :=
      heapSlots_word (i := indexAt virt 12) (.inl hne)
    have hset : (st.setWord (t * pageSize + 8 * tableIndex virt 12) 0).heapSlots =
        st.heapSlots.setWord (t * pageSize + 8 * tableIndex virt 12) 0 :=
      heapSlots_setWord (i := indexAt virt 12) (.inl hne)
    dsimp only [Option.map_some, Option.elim_some]
    rw [hload]
    split_ifs
    · rfl
    · rfl
    · rw [hset]

end

/-- A part of the free pages is as good as all of them. -/
theorem FreshSupply.sublist {st : PageTables} {pages : List ℕ} (h : FreshSupply st)
    (hsub : pages.Sublist st.supply) : FreshSupply (st.withSupply pages) :=
  ⟨h.nodup.sublist (hsub.filter _), fun page hpage => h.fresh page (hsub.subset hpage)⟩

/-! ### The same tables -/

/-- The words of the tables of `st` are the same in `st'`. -/
structure SameTables (st st' : PageTables) : Prop where
  cr3 : st'.cr3 = st.cr3
  words : ∀ p t, p.length ≤ 3 → st.tableAt p = some t → ∀ j,
    frameWord st'.mem t j = frameWord st.mem t j

section
variable {st st' : PageTables} {p : List (Fin 512)} {t : ℕ}

theorem SameTables.frame (h : SameTables st st') : st'.frame = st.frame := by
  rw [PageTables.frame, PageTables.frame, PageTables.root, PageTables.root, h.cr3]

theorem SameTables.tableAt_eq (h : SameTables st st') (hp : p.length ≤ 4) :
    st'.tableAt p = st.tableAt p := by
  unfold PageTables.tableAt
  rw [h.frame]
  apply table_congr
  intro q₁ j q₂ t' hsplit ht'
  apply h.words q₁ t' _ ht'
  rw [hsplit, List.length_append, List.length_cons] at hp
  omega

theorem SameTables.leafOf_eq (h : SameTables st st') (virt : ℕ) :
    st'.leafOf virt = st.leafOf virt := by
  have hlen : (tablePath virt).length = 3 := rfl
  have htable := h.tableAt_eq (p := tablePath virt) (by omega)
  unfold PageTables.leafOf leaf
  rw [show table _ _ st'.frame _ = st'.tableAt (tablePath virt) from rfl, htable]
  apply Option.bind_congr
  intro t ht
  rw [h.words _ t hlen.le ht]

theorem SameTables.lacks_eq (h : SameTables st st') (virt : ℕ) :
    st'.lacks (tablePath virt) = st.lacks (tablePath virt) := by
  unfold PageTables.lacks
  rw [h.frame]
  apply Radix.missing_congr
  intro q₁ j q₂ t' hsplit ht'
  apply h.words q₁ t' _ ht'
  have hlen := congrArg List.length hsplit
  simp only [tablePath, List.length_append, List.length_cons, List.length_nil] at hlen
  omega

theorem SameTables.tree (h : SameTables st st') (ht : TreeTables st) : TreeTables st' := by
  constructor
  · intro p q t hp hq hpt hqt
    apply ht.distinct p q t hp hq
    · exact (h.tableAt_eq (Nat.le_succ_of_le hp)).symm.trans hpt
    · exact (h.tableAt_eq (Nat.le_succ_of_le hq)).symm.trans hqt
  · intro p t hp hpt i hpres
    rw [h.tableAt_eq (by omega)] at hpt
    rw [h.words p t (by omega) hpt i] at hpres ⊢
    exact ht.noLarge p t hp hpt i hpres

theorem SameTables.fresh (h : SameTables st st') {supply : List ℕ}
    (hs : FreshSupply (st.withSupply supply)) : FreshSupply (st'.withSupply supply) := by
  constructor
  · exact hs.nodup
  · intro page hpage hne
    obtain ⟨hdvd, hlt, hnot⟩ := hs.fresh page hpage hne
    refine ⟨hdvd, hlt, ?_⟩
    intro p hp htable
    apply hnot p hp
    exact (h.tableAt_eq (Nat.le_succ_of_le hp)).symm.trans htable

end

/-! ### Calls that leave words alone -/

/-- `st'` comes from `st` by writes to other words than those in `K`. -/
structure KeepsWords (K : ℕ → Fin 512 → Prop) (st st' : PageTables) : Prop where
  cr3 : st'.cr3 = st.cr3
  supply : st'.supply <:+ st.supply
  words : ∀ t j, K t j → frameWord st'.mem t j = frameWord st.mem t j

/-- The pages that `alloc_page` returns have no word in `K`. -/
def PagesApart (K : ℕ → Fin 512 → Prop) (st : PageTables) : Prop :=
  ∀ page ∈ st.supply, page ≠ 0 → pageSize ∣ page ∧ page < 2 ^ 52 ∧ ∀ j, ¬ K (page / pageSize) j

section
variable {K : ℕ → Fin 512 → Prop} {st st' st₁ : PageTables} {path : List (Fin 512)}
  {t f v virt phys flags : ℕ} {i last : Fin 512}

theorem KeepsWords.refl (K : ℕ → Fin 512 → Prop) (st : PageTables) : KeepsWords K st st :=
  ⟨rfl, List.suffix_refl _, fun _ _ _ => rfl⟩

theorem KeepsWords.trans (h : KeepsWords K st st₁) (h' : KeepsWords K st₁ st') : KeepsWords K st st' :=
  ⟨h'.cr3.trans h.cr3, h'.supply.trans h.supply,
    fun t j hk => (h'.words t j hk).trans (h.words t j hk)⟩

theorem KeepsWords.setWord (h : KeepsWords K st st') (hk : ¬ K t i) :
    KeepsWords K st (st'.setWord (t * pageSize + 8 * i) v) := by
  refine ⟨h.cr3, h.supply, fun t' j hk' => ?_⟩
  have hne : t' ≠ t ∨ j ≠ i := by
    by_contra hsame
    obtain ⟨rfl, rfl⟩ : t' = t ∧ j = i := by simpa [not_or] using hsame
    exact hk hk'
  exact (frameWord_store_of_ne hne).trans (h.words t' j hk')

theorem KeepsWords.takePage (K : ℕ → Fin 512 → Prop) (st : PageTables) : KeepsWords K st st.takePage.1 :=
  ⟨rfl, List.tail_suffix _, fun _ _ _ => rfl⟩

theorem KeepsWords.pagesApart (h : KeepsWords K st st') (hp : PagesApart K st) : PagesApart K st' :=
  fun page hpage => hp page (h.supply.subset hpage)

/-- Laying tables along a path writes to words on the path and to pages from `alloc_page`. -/
theorem ensureTables_keeps (hpages : PagesApart K st)
    (hwalk : ∀ q j r t', path ++ [last] = q ++ j :: r →
      table entryFrame (frameWord st.mem) t q = some t' → ¬ K t' j) :
    KeepsWords K st (ensureTables st (t * pageSize) path).1 ∧
      ∀ a, (ensureTables st (t * pageSize) path).2 = .ok a →
        ∃ t', a = t' * pageSize ∧ ¬ K t' last := by
  induction path generalizing st t with
  | nil =>
    refine ⟨.refl K st, fun a ha => ⟨t, (Except.ok.inj ha).symm, ?_⟩⟩
    exact hwalk [] last [] t rfl rfl
  | cons i path ih =>
    have hword : ¬ K t i := hwalk [] i (path ++ [last]) t rfl rfl
    rw [ensureTables, ensureNextTable]
    rcases entryFrame_cases (tableWord st.mem (t * pageSize) i) with
      ⟨habsent, -⟩ | ⟨hpres, t₁, hnext, htable⟩
    · rw [if_neg (by simp [habsent])]
      dsimp only
      by_cases hpage : st.takePage.2 = 0
      · rw [if_pos hpage]
        exact ⟨.takePage K st, fun a ha => by cases ha⟩
      · rw [if_neg hpage]
        have hmem : st.takePage.2 ∈ st.supply := by
          cases hsupply : st.supply with
          | nil => simp [PageTables.takePage, hsupply] at hpage
          | cons page rest => simp [PageTables.takePage, hsupply]
        obtain ⟨⟨f, hf⟩, hlt, hfree⟩ := hpages _ hmem hpage
        rw [hf] at hfree hlt ⊢
        rw [Nat.mul_comm] at hlt ⊢
        rw [Nat.mul_div_cancel_left _ (by decide)] at hfree
        have hclear := clearPage_cleared st.takePage.1 f
        have hcleared : KeepsWords K st (clearPage st.takePage.1 (f * pageSize)) := by
          apply (KeepsWords.takePage K st).trans
          constructor
          · exact hclear.cr3
          · rw [hclear.supply]
          · intro t' j hk
            apply hclear.other t' j
            rintro rfl
            exact hfree j hk
        have hlinked := hcleared.setWord (v := makeTableEntry (f * pageSize)) hword
        -- The words of the new table are 0, but for one that may lead back to it.
        have hloop (j : Fin 512) : entryFrame (frameWord ((clearPage st.takePage.1
            (f * pageSize)).setWord (t * pageSize + 8 * i) (makeTableEntry (f * pageSize))).mem f j) =
              none ∨ entryFrame (frameWord ((clearPage st.takePage.1 (f * pageSize)).setWord
                (t * pageSize + 8 * i) (makeTableEntry (f * pageSize))).mem f j) = some f := by
          by_cases hsame : f = t ∧ j = i
          · obtain ⟨rfl, rfl⟩ := hsame
            obtain ⟨hentry, -, hlt'⟩ := makeTableEntry_spec (f := f) (by
              simp only [pageSize] at hlt
              omega)
            exact .inr ((congrArg entryFrame (frameWord_store_self hlt')).trans hentry)
          · left
            have hzero : frameWord ((clearPage st.takePage.1 (f * pageSize)).setWord
                (t * pageSize + 8 * i) (makeTableEntry (f * pageSize))).mem f j = 0 :=
              (frameWord_store_of_ne (not_and_or.mp hsame)).trans (hclear.zero j j.isLt)
            rw [hzero]
            rfl
        obtain ⟨hrest, hlast⟩ := ih (hlinked.pagesApart hpages) fun q j r t' _ ht' =>
          table_of_loop hloop ht' ▸ hfree j
        exact ⟨hlinked.trans hrest, hlast⟩
    · rw [if_pos hpres, htable]
      refine ih hpages fun q j r t' hsplit ht' => hwalk (i :: q) j r t' ?_ ?_
      · rw [List.cons_append, hsplit, List.cons_append]
      · rw [table, show entryFrame (frameWord st.mem t i) = some t₁ from hnext]
        exact ht'

theorem mapPage_keeps (hpages : PagesApart K st)
    (hwalk : ∀ q j r t', tablePath virt ++ [indexAt virt 12] = q ++ j :: r →
      st.tableAt q = some t' → ¬ K t' j) : KeepsWords K st (mapPage st virt phys flags).1 := by
  obtain ⟨hkeeps, hlast⟩ := ensureTables_keeps hpages hwalk
  rw [st.root_frame] at hkeeps hlast
  unfold mapPage
  rw [createEntry_eq]
  generalize ensureTables st st.root (tablePath virt) = r at hkeeps hlast
  obtain ⟨st₁, ret | a⟩ := r
  · split_ifs
    · exact .refl K st
    · exact hkeeps
  · obtain ⟨t', rfl, hk⟩ := hlast a rfl
    dsimp only [withTable]
    split_ifs
    · exact .refl K st
    · exact hkeeps
    · exact hkeeps.setWord (i := indexAt virt 12) hk

theorem unmapPage_keeps (hwalk : ∀ q j r t', tablePath virt ++ [indexAt virt 12] = q ++ j :: r →
    st.tableAt q = some t' → ¬ K t' j) : KeepsWords K st (unmapPage st virt).1 := by
  unfold unmapPage
  rw [findEntry_eq]
  cases htable : st.tableAt (tablePath virt) with
  | none =>
    dsimp only [Option.map_none, Option.elim_none]
    split_ifs <;> exact .refl K st
  | some t =>
    dsimp only [Option.map_some, Option.elim_some]
    split_ifs
    · exact .refl K st
    · exact .refl K st
    · exact (KeepsWords.refl K st).setWord (i := indexAt virt 12) (hwalk _ _ [] t rfl htable)

end

/-! ### Users of other entries -/

namespace PageTables

/-- The words that the tables below the heap's entries consist of. -/
def HeapWord (st : PageTables) (t : ℕ) (j : Fin 512) : Prop :=
  (∃ p, p.length ≤ 3 ∧ st.heapSlots.tableAt p = some t) ∧ (t = st.frame → heapSlot ≤ j.val)

/-- The tables that the walk of an address meets after the root are no tables of the heap, and no
pages behind it. -/
def Spares (st : PageTables) (virt : ℕ) : Prop :=
  ∀ p t, p ≠ [] → p <+: tablePath virt → st.tableAt p = some t →
    (∀ q, q.length ≤ 3 → st.heapSlots.tableAt q ≠ some t) ∧
    ∀ u e, heapBase ≤ u → st.leafOf u = some e → e &&& x86PageMask ≠ t * pageSize

end PageTables

section
variable {st st' : PageTables} {p : List (Fin 512)} {t virt phys flags : ℕ}

/-- The walk of an address that another PML4 entry leads to meets no word of the heap's tables. -/
theorem PageTables.Spares.walk (h : st.Spares virt) (hlow : (indexAt virt 39).val < heapSlot)
    (q : List (Fin 512)) (j : Fin 512) (r : List (Fin 512)) (t' : ℕ)
    (hsplit : tablePath virt ++ [indexAt virt 12] = q ++ j :: r) (ht' : st.tableAt q = some t') :
    ¬ st.HeapWord t' j := by
  rintro ⟨⟨p, hp, hat⟩, hroot⟩
  cases q with
  | nil =>
    obtain rfl : st.frame = t' := Option.some.inj ht'
    obtain rfl : indexAt virt 39 = j := List.head_eq_of_cons_eq hsplit
    exact absurd (hroot rfl) (Nat.not_le.mpr hlow)
  | cons i q =>
    have hlen : (i :: q).length ≤ (tablePath virt).length := by
      have hlengths := congrArg List.length hsplit
      simp only [List.length_append, List.length_cons, List.length_nil] at hlengths ⊢
      omega
    have hprefix : (i :: q) <+: tablePath virt :=
      List.prefix_of_prefix_length_le ⟨j :: r, hsplit.symm⟩ ⟨_, rfl⟩ hlen
    exact (h (i :: q) t' nofun hprefix ht').1 p hp hat

/-- Free pages have no words of the heap's tables. -/
theorem FreshSupply.pagesApart (h : FreshSupply st.heapSlots) : PagesApart st.HeapWord st := by
  intro page hpage hne
  obtain ⟨hdvd, hlt, hfresh⟩ := h.fresh page hpage hne
  exact ⟨hdvd, hlt, fun j ⟨⟨p, hp, hat⟩, _⟩ => hfresh p hp hat⟩

theorem KeepsWords.same (h : KeepsWords st.HeapWord st st') :
    SameTables st.heapSlots st'.heapSlots := by
  have hframe : st'.frame = st.frame := by
    rw [PageTables.frame, PageTables.root, h.cr3]
    rfl
  refine ⟨h.cr3, fun p t hp hat j => ?_⟩
  by_cases hlow : t = st.frame ∧ j.val < heapSlot
  · obtain ⟨rfl, hj⟩ := hlow
    rw [heapSlots_word_low hj, ← hframe, heapSlots_word_low hj]
  · have hword : t ≠ st.frame ∨ heapSlot ≤ j.val := by omega
    rw [heapSlots_word hword, heapSlots_word (hframe ▸ hword)]
    exact h.words t j ⟨⟨p, hp, hat⟩, fun he => by omega⟩

/-! ### Tables that are a tree as a whole -/

theorem TreeTables.heapSlots_tableAt_some (ht : TreeTables st) (hp : p.length ≤ 3)
    (h : st.heapSlots.tableAt p = some t) : st.tableAt p = some t := by
  cases p with
  | nil =>
    have hroot : st.heapSlots.tableAt [] = some st.frame := rfl
    rw [← h, hroot]
    rfl
  | cons i p =>
    by_cases hi : i.val < heapSlot
    · rw [PageTables.tableAt, table, frame_heapSlots, heapSlots_word_low hi] at h
      cases h
    · rw [← h]
      symm
      apply table_congr
      intro q₁ j q₂ t' hsplit ht'
      apply heapSlots_word
      cases q₁ with
      | nil =>
        obtain rfl : i = j := List.head_eq_of_cons_eq hsplit
        exact .inr (Nat.not_lt.mp hi)
      | cons k q₁ =>
        left
        rintro rfl
        rw [hsplit, List.length_append, List.length_cons (a := j)] at hp
        exact absurd (ht.distinct (k :: q₁) [] _ (by omega) (Nat.zero_le _) ht' rfl)
          (List.cons_ne_nil k q₁)

/-- Tables that form a tree without large pages do so below the heap's entries. -/
theorem TreeTables.heapSlots (ht : TreeTables st) : TreeTables st.heapSlots := by
  constructor
  · intro p q t hp hq hpt hqt
    exact ht.distinct p q t hp hq (ht.heapSlots_tableAt_some hp hpt)
      (ht.heapSlots_tableAt_some hq hqt)
  · intro p t hp hpt i hpres
    by_cases hlow : t = st.frame ∧ i.val < heapSlot
    · obtain ⟨rfl, hi⟩ := hlow
      rw [heapSlots_word_low hi] at hpres
      cases hpres
    · have hword : t ≠ st.frame ∨ heapSlot ≤ i.val := by omega
      rw [heapSlots_word hword] at hpres ⊢
      exact ht.noLarge p t hp (ht.heapSlots_tableAt_some (by omega) hpt) i hpres

theorem FreshSupply.heapSlots (ht : TreeTables st) (h : FreshSupply st) :
    FreshSupply st.heapSlots := by
  refine ⟨h.nodup, fun page hpage hne => ?_⟩
  obtain ⟨hdvd, hlt, hfresh⟩ := h.fresh page hpage hne
  exact ⟨hdvd, hlt, fun p hp hat => hfresh p hp (ht.heapSlots_tableAt_some hp hat)⟩

end

end Tianole.Mm
