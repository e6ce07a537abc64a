import Mathlib.Tactic.Ring
import Tianole.Lib.Radix
import Tianole.Mm.PageTable

/-! The page tables as a radix tree, and `map_page`, `unmap_page` and `virt_to_phys` as
operations on a partial map from virtual pages to leaf entries. -/
namespace Tianole.Mm
open Memory Bits Radix Runs

/-- The words of the table in page frame `t`. -/
def frameWord (mem : Mem) (t : ℕ) (i : Fin 512) : ℕ := tableWord mem (t * pageSize) i

/-- The page frame that an entry names. -/
def entryFrame (entry : ℕ) : Option ℕ :=
  if isPresent entry then some (entryTable entry / pageSize) else none

/-- The index of an address in the tables of one level. -/
def indexAt (virt shift : ℕ) : Fin 512 :=
  ⟨tableIndex virt shift, Nat.lt_of_le_of_lt Nat.and_le_right (by decide)⟩

/-- The indices that lead to the last table. -/
def tablePath (virt : ℕ) : List (Fin 512) := [indexAt virt 39, indexAt virt 30, indexAt virt 21]

namespace PageTables

def frame (st : PageTables) : ℕ := st.root / pageSize

/-- The frame of the table at the end of a path. -/
def tableAt (st : PageTables) (p : List (Fin 512)) : Option ℕ :=
  table entryFrame (frameWord st.mem) st.frame p

/-- The leaf entry of an address, if it is present. -/
def leafOf (st : PageTables) (virt : ℕ) : Option ℕ :=
  leaf entryFrame (frameWord st.mem) st.frame (tablePath virt) (indexAt virt 12)

end PageTables

section Words
variable {mem : Mem} {t t' v e : ℕ} {i j : Fin 512}

theorem x86PageMask_eq : x86PageMask = 2 ^ 52 - 2 ^ 12 := rfl

theorem entryTable_dvd (e : ℕ) : pageSize ∣ entryTable e := by
  rw [entryTable, x86PageMask_eq, land_mask (by decide)]
  exact Nat.dvd_mul_left _ _

theorem entryTable_frame (e : ℕ) : entryTable e / pageSize * pageSize = entryTable e :=
  Nat.div_mul_cancel (entryTable_dvd e)

theorem PageTables.root_frame (st : PageTables) : st.frame * pageSize = st.root :=
  entryTable_frame st.cr3

/-- Words at different places do not overlap. -/
theorem frameWord_store_of_ne (h : t' ≠ t ∨ j ≠ i) :
    frameWord (store mem (t * pageSize + 8 * i) 8 v) t' j = frameWord mem t' j := by
  have hi := i.isLt
  have hj := j.isLt
  have hne : t' ≠ t ∨ j.val ≠ i.val := h.imp_right fun hji he => hji (Fin.ext he)
  refine load_store_of_disjoint ?_
  simp only [pageSize]
  omega

theorem frameWord_store_self (h : v < 2 ^ 64) :
    frameWord (store mem (t * pageSize + 8 * i) 8 v) t i = v :=
  load_store_of_lt (by simpa using h)

/-- `st'` is `st` with the first `n` words of page frame `f` set to 0. -/
structure Cleared (f n : ℕ) (st st' : PageTables) : Prop where
  cr3 : st'.cr3 = st.cr3
  supply : st'.supply = st.supply
  written : ∀ a ∈ st'.written, a ∈ st.written ∨ f * pageSize ≤ a ∧ a + 8 ≤ f * pageSize + pageSize
  other : ∀ t' j, t' ≠ f → frameWord st'.mem t' j = frameWord st.mem t' j
  zero : ∀ j : Fin 512, j.val < n → frameWord st'.mem f j = 0

theorem Cleared.step {f n : ℕ} {st st' : PageTables} (h : Cleared f n st st') (hn : n < 512) :
    Cleared f (n + 1) st (st'.setWord (f * pageSize + 8 * n) 0) := by
  refine ⟨h.cr3, h.supply, fun a ha => ?_, fun t' j hne => ?_, fun j hj => ?_⟩
  · rcases List.mem_cons.mp ha with rfl | ha
    · right
      simp only [pageSize]
      omega
    · exact h.written a ha
  · rw [← h.other t' j hne]
    exact frameWord_store_of_ne (i := ⟨n, hn⟩) (.inl hne)
  · by_cases hjn : j = ⟨n, hn⟩
    · rw [hjn]
      exact frameWord_store_self (by decide)
    · have hlt : j.val < n := by
        have hval : j.val ≠ n := fun he => hjn (Fin.ext he)
        omega
      rw [← h.zero j hlt]
      exact frameWord_store_of_ne (i := ⟨n, hn⟩) (.inr hjn)

theorem clearPage_cleared (st : PageTables) (f : ℕ) :
    Cleared f 512 st (clearPage st (f * pageSize)) := by
  have hloop (n : ℕ) (hn : n ≤ 512) : Cleared f n st ((List.range n).foldl
      (fun st index => st.setWord (f * pageSize + 8 * index) 0) st) := by
    induction n with
    | zero => exact ⟨rfl, rfl, fun a ha => .inl ha, fun _ _ _ => rfl, fun j hj => by omega⟩
    | succ n ih =>
      rw [List.range_succ, List.foldl_append, List.foldl_cons, List.foldl_nil]
      exact (ih (by omega)).step (by omega)
  have hwords : pageSize / 8 = 512 := rfl
  rw [clearPage, hwords]
  exact hloop 512 le_rfl

theorem isPresent_eq (e : ℕ) : isPresent e = e.testBit 0 := by
  rw [isPresent, pagePresent, Nat.and_two_pow]
  cases e.testBit 0 <;> rfl

theorem isLarge_eq (e : ℕ) : isLarge e = e.testBit 7 := by
  rw [isLarge, x86PageSizeFlag, Nat.and_two_pow]
  cases e.testBit 7 <;> rfl

theorem makeTableEntry_eq (f : ℕ) : makeTableEntry (f * pageSize) = 2 ^ 12 * f + 3 := by
  have hor : f * pageSize ||| pagePresent ||| pageWritable = 2 ^ 12 * f ||| 3 := by
    rw [Nat.or_assoc, Nat.mul_comm]
    rfl
  rw [makeTableEntry, hor, Nat.two_pow_add_eq_or_of_lt (by decide)]

theorem makeTableEntry_spec {f : ℕ} (hf : f < 2 ^ 40) :
    entryFrame (makeTableEntry (f * pageSize)) = some f ∧
      isLarge (makeTableEntry (f * pageSize)) = false ∧ makeTableEntry (f * pageSize) < 2 ^ 64 := by
  rw [makeTableEntry_eq]
  refine ⟨?_, ?_, by omega⟩
  · have hpresent : isPresent (2 ^ 12 * f + 3) = true := by
      rw [isPresent_eq, Nat.testBit_eq_decide_div_mod_eq, decide_eq_true_eq]
      omega
    have htable : entryTable (2 ^ 12 * f + 3) = f * pageSize := by
      rw [entryTable, x86PageMask_eq, land_mask (by decide), Nat.mod_eq_of_lt (by omega)]
      simp only [pageSize]
      omega
    rw [entryFrame, if_pos hpresent, htable, Nat.mul_div_cancel _ (by decide)]
  · rw [isLarge_eq, Nat.testBit_eq_decide_div_mod_eq, decide_eq_false_iff_not]
    omega

/-- The flags that callers pass to `map_page`. -/
def MapFlags (flags : ℕ) : Prop :=
  flags ∈ [0, pageWritable, pageNoExecute, pageWritable ||| pageNoExecute]

/-- The leaf entry that `map_page` writes. -/
def leafEntry (phys flags : ℕ) : ℕ := (phys &&& x86PageMask) ||| flags ||| pagePresent

theorem leafEntry_spec {phys flags : ℕ} (hphys : pageSize ∣ phys) (hlt : phys < 2 ^ 52)
    (hflags : MapFlags flags) : isPresent (leafEntry phys flags) = true ∧
      leafEntry phys flags &&& x86PageMask = phys ∧
      leafEntry phys flags &&& (pageWritable ||| pageNoExecute) = flags ∧
      leafEntry phys flags < 2 ^ 64 := by
  have hmask : phys &&& x86PageMask = phys := by
    rw [x86PageMask_eq, land_high (by decide) hlt]
    exact Nat.div_mul_cancel hphys
  have hlow : phys &&& (pageWritable ||| pageNoExecute) = 0 := by
    rw [Nat.and_or_distrib_left, pageWritable, pageNoExecute, Nat.and_two_pow, Nat.and_two_pow,
      Nat.testBit_eq_decide_div_mod_eq, Nat.testBit_lt_two_pow (by omega)]
    have hbit : phys / 2 % 2 = 0 := by
      simp only [pageSize] at hphys
      omega
    simp [hbit]
  have hf : flags &&& x86PageMask = 0 ∧
      flags &&& (pageWritable ||| pageNoExecute) = flags ∧ flags < 2 ^ 64 := by
    simp only [MapFlags, List.mem_cons, List.not_mem_nil, or_false] at hflags
    rcases hflags with rfl | rfl | rfl | rfl <;> decide
  unfold leafEntry
  rw [hmask]
  refine ⟨?_, ?_, ?_, ?_⟩
  · rw [isPresent_eq, Nat.testBit_or]
    simp [pagePresent]
  · have hone : pagePresent &&& x86PageMask = 0 := by decide
    rw [Nat.and_or_distrib_right, Nat.and_or_distrib_right, hmask, hf.1, hone]
    simp
  · have hone : pagePresent &&& (pageWritable ||| pageNoExecute) = 0 := by decide
    rw [Nat.and_or_distrib_right, Nat.and_or_distrib_right, hlow, hf.2.1, hone]
    simp
  · exact Nat.or_lt_two_pow (Nat.or_lt_two_pow (by omega) hf.2.2) (by decide)

end Words

/-! ### Growing the tree -/

/-- Tables that form a tree and have no large pages. -/
structure TreeTables (st : PageTables) : Prop where
  distinct : Tree entryFrame (frameWord st.mem) st.frame 3
  noLarge : ∀ p t, p.length ≤ 2 → st.tableAt p = some t → ∀ i,
    isPresent (frameWord st.mem t i) = true → isLarge (frameWord st.mem t i) = false

/-- Pages that `alloc_page` returns are distinct physical pages that are no tables. -/
structure FreshSupply (st : PageTables) : Prop where
  nodup : (st.supply.filter (· ≠ 0)).Nodup
  fresh : ∀ page ∈ st.supply, page ≠ 0 → pageSize ∣ page ∧ page < 2 ^ 52 ∧
    ∀ p, p.length ≤ 3 → st.tableAt p ≠ some (page / pageSize)

/-- `st'` has the tables of `st`, perhaps some more, and the same leaf entries. -/
structure Grows (st st' : PageTables) : Prop where
  cr3 : st'.cr3 = st.cr3
  tables : ∀ p t, p.length ≤ 3 → st.tableAt p = some t → st'.tableAt p = some t
  leaf : ∀ p i, p.length = 3 → leaf entryFrame (frameWord st'.mem) st'.frame p i =
    leaf entryFrame (frameWord st.mem) st.frame p i
  shaped : TreeTables st'
  fresh : FreshSupply st'

/-- At most `k` pages of the supply are gone, and the new tables are among them. -/
def Uses (k : ℕ) (st st' : PageTables) : Prop :=
  ∃ used, st.supply = used ++ st'.supply ∧ used.length ≤ k ∧ ∀ p t, p.length ≤ 3 →
    st'.tableAt p = some t → st.tableAt p = some t ∨ t * pageSize ∈ used

/-- `st'` comes from `st` by taking at most `k` pages of the supply, for tables only. -/
structure Feeds (k : ℕ) (st st' : PageTables) : Prop where
  grows : Grows st st'
  uses : Uses k st st'

section Growing
variable {st st' : PageTables} {p : List (Fin 512)} {t f : ℕ} {i : Fin 512}

theorem Grows.refl (ht : TreeTables st) (hs : FreshSupply st) : Grows st st :=
  ⟨rfl, fun _ _ _ h => h, fun _ _ _ => rfl, ht, hs⟩

theorem Grows.trans {st'' : PageTables} (h : Grows st st') (h' : Grows st' st'') : Grows st st'' :=
  ⟨h'.cr3.trans h.cr3, fun p t hp ht => h'.tables p t hp (h.tables p t hp ht),
    fun p i hp => (h'.leaf p i hp).trans (h.leaf p i hp), h'.shaped, h'.fresh⟩

/-- An `alloc_page` that leads to nothing. -/
theorem grows_takePage (ht : TreeTables st) (hs : FreshSupply st) : Grows st st.takePage.1 := by
  refine ⟨rfl, fun _ _ _ h => h, fun _ _ _ => rfl, ⟨ht.distinct, ht.noLarge⟩,
    ⟨?_, fun page hp => hs.fresh page (List.mem_of_mem_tail hp)⟩⟩
  exact hs.nodup.sublist ((List.tail_sublist _).filter _)

theorem Feeds.refl (ht : TreeTables st) (hs : FreshSupply st) : Feeds 0 st st :=
  ⟨.refl ht hs, [], rfl, le_rfl, fun _ _ _ h => .inl h⟩

theorem Feeds.trans {st'' : PageTables} {k k' : ℕ} (h : Feeds k st st') (h' : Feeds k' st' st'') :
    Feeds (k + k') st st'' := by
  obtain ⟨used, hused, hlen, htable⟩ := h.uses
  obtain ⟨used', hused', hlen', htable'⟩ := h'.uses
  refine ⟨h.grows.trans h'.grows, used ++ used', ?_, ?_, fun p t hp ht => ?_⟩
  · rw [hused, hused', List.append_assoc]
  · rw [List.length_append]
    omega
  · rcases htable' p t hp ht with ht' | hmem
    · exact (htable p t hp ht').imp_right (List.mem_append_left _)
    · exact .inr (List.mem_append_right _ hmem)

theorem Feeds.mono {k k' : ℕ} (h : Feeds k st st') (hk : k ≤ k') : Feeds k' st st' := by
  obtain ⟨used, hused, hlen, htable⟩ := h.uses
  exact ⟨h.grows, used, hused, hlen.trans hk, htable⟩

theorem feeds_takePage (ht : TreeTables st) (hs : FreshSupply st) : Feeds 1 st st.takePage.1 := by
  refine ⟨grows_takePage ht hs, st.supply.take 1, ?_, List.length_take_le _ _, fun _ _ _ h => .inl h⟩
  cases hsupply : st.supply with
  | nil => simp [PageTables.takePage, hsupply]
  | cons page rest => simp [PageTables.takePage, hsupply]

/-- `st'` is `st` after a page was taken, cleared and put behind word `i` of table `t`. -/
structure Inserted (st st' : PageTables) (p : List (Fin 512)) (i : Fin 512) (t f : ℕ) : Prop where
  cr3 : st'.cr3 = st.cr3
  supply : st'.supply = st.supply.tail
  links : Links entryFrame (frameWord st.mem) (frameWord st'.mem) st.frame 3 p i t f
  word : frameWord st'.mem t i = makeTableEntry (f * pageSize)

theorem Cleared.inserted {st₁ : PageTables} (hclear : Cleared f 512 st.takePage.1 st₁)
    (hp : st.tableAt p = some t) (hd : p.length < 3)
    (habsent : isPresent (frameWord st.mem t i) = false) (hf : f < 2 ^ 40)
    (hfresh : ∀ q, q.length ≤ 3 → st.tableAt q ≠ some f) :
    Inserted st (st₁.setWord (t * pageSize + 8 * i) (makeTableEntry (f * pageSize))) p i t f := by
  obtain ⟨hentry, -, hlt⟩ := makeTableEntry_spec hf
  have hne : f ≠ t := fun he => hfresh p hd.le (he ▸ hp)
  refine ⟨hclear.cr3, hclear.supply, ⟨hp, hd, by rw [entryFrame, habsent]; rfl, hfresh,
    fun t' j hne' hf' => ?_, ?_, fun j => ?_⟩, frameWord_store_self hlt⟩
  · exact (frameWord_store_of_ne hne').trans (hclear.other t' j hf')
  · exact (congrArg entryFrame (frameWord_store_self hlt)).trans hentry
  · have hzero : frameWord (st₁.setWord (t * pageSize + 8 * i)
        (makeTableEntry (f * pageSize))).mem f j = 0 :=
      (frameWord_store_of_ne (.inl hne)).trans (hclear.zero j j.isLt)
    rw [hzero]
    rfl

theorem Inserted.grows {rest : List ℕ} (h : Inserted st st' p i t f) (ht : TreeTables st)
    (hs : FreshSupply st) (hsupply : st.supply = f * pageSize :: rest) (hf : f * pageSize ≠ 0) :
    Grows st st' ∧ st'.tableAt (p ++ [i]) = some f := by
  have hl := h.links
  have hd := hl.depth
  have hlt := (hs.fresh _ (by rw [hsupply]; simp) hf).2.1
  have hf40 : f < 2 ^ 40 := by simp only [pageSize] at hlt; omega
  have hframe : st'.frame = st.frame := by
    rw [PageTables.frame, PageTables.root, h.cr3]
    rfl
  have htable (q : List (Fin 512)) (hq : q.length ≤ 3) := hl.table_eq ht.distinct hq
  have hnew : st'.tableAt (p ++ [i]) = some f := by
    rcases htable (p ++ [i]) (by simp; omega) with ⟨-, he⟩ | ⟨hne, -⟩
    · rw [PageTables.tableAt, hframe]
      exact he
    · exact absurd rfl hne
  refine ⟨⟨h.cr3, fun q t' hq hqt => ?_, fun q j hq => ?_, ⟨?_, fun q t' hq hqt j hpres => ?_⟩,
    ⟨?_, fun page hpage hpage0 => ?_⟩⟩, hnew⟩
  · rcases htable q hq with ⟨rfl, -⟩ | ⟨-, he⟩
    · have hnone : st.tableAt (p ++ [i]) = none := by
        rw [PageTables.tableAt, table_concat, hl.at_path]
        exact hl.absent
      rw [hnone] at hqt
      cases hqt
    · rw [PageTables.tableAt, hframe, he]
      exact hqt
  · rw [hframe]
    exact hl.leaf_eq ht.distinct hq
  · rw [hframe]
    exact hl.tree ht.distinct
  · rw [PageTables.tableAt, hframe] at hqt
    rcases htable q (by omega) with ⟨rfl, he⟩ | ⟨-, he⟩
    · -- The new table has no present entries.
      obtain rfl : f = t' := Option.some.inj (he.symm.trans hqt)
      have hblank := hl.blank j
      rw [entryFrame, if_pos hpres] at hblank
      cases hblank
    · rw [he] at hqt
      by_cases hword : t' = t ∧ j = i
      · obtain ⟨rfl, rfl⟩ := hword
        rw [h.word]
        exact (makeTableEntry_spec hf40).2.1
      · have hsame : frameWord st'.mem t' j = frameWord st.mem t' j :=
          hl.same t' j (by tauto) fun hft => hl.fresh q (by omega) (hft ▸ hqt)
        rw [hsame] at hpres ⊢
        exact ht.noLarge q t' hq hqt j hpres
  · rw [h.supply, hsupply, List.tail_cons]
    refine hs.nodup.sublist (List.Sublist.filter _ ?_)
    rw [hsupply]
    exact List.sublist_cons_self _ _
  · rw [h.supply, hsupply, List.tail_cons] at hpage
    obtain ⟨hdvd, hlt', hfresh'⟩ := hs.fresh page (by rw [hsupply]; simp [hpage]) hpage0
    refine ⟨hdvd, hlt', fun q hq hqt => ?_⟩
    rw [PageTables.tableAt, hframe] at hqt
    rcases htable q hq with ⟨-, he⟩ | ⟨-, he⟩
    · -- The page itself was handed out once.
      have hpf : page = f * pageSize := by
        have hfe : f = page / pageSize := Option.some.inj (he.symm.trans hqt)
        rw [hfe, Nat.div_mul_cancel hdvd]
      have hnd := hs.nodup
      rw [hsupply, List.filter_cons_of_pos (by simpa using hf), List.nodup_cons] at hnd
      exact hnd.1 (List.mem_filter.mpr ⟨hpf ▸ hpage, by simpa using hf⟩)
    · rw [he] at hqt
      exact hfresh' q hq hqt

theorem Inserted.feeds {rest : List ℕ} (h : Inserted st st' p i t f) (ht : TreeTables st)
    (hs : FreshSupply st) (hsupply : st.supply = f * pageSize :: rest) (hf : f * pageSize ≠ 0) :
    Feeds 1 st st' := by
  have hframe : st'.frame = st.frame := by
    rw [PageTables.frame, PageTables.root, h.cr3]
    rfl
  refine ⟨(h.grows ht hs hsupply hf).1, [f * pageSize], ?_, le_rfl, fun q t' hq hqt => ?_⟩
  · rw [h.supply, hsupply]
    rfl
  · rw [PageTables.tableAt, hframe] at hqt
    rcases h.links.table_eq ht.distinct hq with ⟨-, he⟩ | ⟨-, he⟩
    · obtain rfl : f = t' := Option.some.inj (he.symm.trans hqt)
      exact .inr (by simp)
    · exact .inl (he.symm.trans hqt)

/-- A step of `page_entry`: the next table is there, or memory ran out, or a page is cleared and
linked. -/
theorem ensureNextTable_cases (hs : FreshSupply st) (hp : st.tableAt p = some t)
    (hd : p.length < 3) :
    (∃ t', entryFrame (frameWord st.mem t i) = some t' ∧
      ensureNextTable st (t * pageSize) i = (st, .ok (t' * pageSize))) ∨
    (entryFrame (frameWord st.mem t i) = none ∧ st.takePage.2 = 0 ∧
      ensureNextTable st (t * pageSize) i = (st.takePage.1, .error (-enomem))) ∨
    ∃ st' f rest, st.supply = f * pageSize :: rest ∧ f * pageSize ≠ 0 ∧ Inserted st st' p i t f ∧
      (∀ j, frameWord st'.mem f j = 0) ∧
      ensureNextTable st (t * pageSize) i = (st', .ok (f * pageSize)) := by
  have hword : tableWord st.mem (t * pageSize) i = frameWord st.mem t i := rfl
  unfold ensureNextTable entryFrame
  rw [hword]
  cases hpres : isPresent (frameWord st.mem t i) with
  | true =>
    refine .inl ⟨entryTable (frameWord st.mem t i) / pageSize, if_pos rfl, ?_⟩
    rw [if_pos rfl, entryTable_frame]
  | false =>
    simp only [Bool.false_eq_true, if_false]
    by_cases hpage : st.takePage.2 = 0
    · exact .inr (.inl ⟨trivial, hpage, if_pos hpage⟩)
    · obtain ⟨page, rest, hsupply⟩ : ∃ page rest, st.supply = page :: rest := by
        cases hsup : st.supply with
        | nil => simp [PageTables.takePage, hsup] at hpage
        | cons page rest => exact ⟨page, rest, rfl⟩
      have hhead : st.takePage.2 = page := by simp [PageTables.takePage, hsupply]
      rw [hhead] at hpage ⊢
      obtain ⟨⟨f, rfl⟩, hlt, hfresh⟩ := hs.fresh page (by rw [hsupply]; simp) hpage
      rw [Nat.mul_comm] at hsupply hpage hlt hfresh ⊢
      rw [Nat.mul_div_cancel _ (by decide)] at hfresh
      have hclear := clearPage_cleared st.takePage.1 f
      have hne : f ≠ t := fun he => hfresh p hd.le (he ▸ hp)
      refine .inr (.inr ⟨_, f, rest, hsupply, hpage, hclear.inserted hp hd hpres
        (by simp only [pageSize] at hlt; omega) hfresh, fun j => ?_, if_neg hpage⟩)
      exact (frameWord_store_of_ne (.inl hne)).trans (hclear.zero j j.isLt)

/-- A step of `page_entry` towards the next table, which exists then unless memory ran out. -/
theorem ensureNextTable_feeds (ht : TreeTables st) (hs : FreshSupply st)
    (hp : st.tableAt p = some t) (hd : p.length < 3) :
    ∃ st', Feeds 1 st st' ∧ ((∃ t', ensureNextTable st (t * pageSize) i = (st', .ok (t' * pageSize)) ∧
        st'.tableAt (p ++ [i]) = some t') ∨
      ensureNextTable st (t * pageSize) i = (st', .error (-enomem)) ∧ st.takePage.2 = 0) := by
  rcases ensureNextTable_cases (i := i) hs hp hd with
    ⟨t', hnext, he⟩ | ⟨-, hpage, he⟩ | ⟨st', f, rest, hsupply, hpage, hins, -, he⟩
  · refine ⟨st, (Feeds.refl ht hs).mono (by decide), .inl ⟨t', he, ?_⟩⟩
    rw [PageTables.tableAt, table_concat, show table _ _ _ p = some t from hp]
    exact hnext
  · exact ⟨_, feeds_takePage ht hs, .inr ⟨he, hpage⟩⟩
  · exact ⟨st', hins.feeds ht hs hsupply hpage,
      .inl ⟨f, he, (hins.grows ht hs hsupply hpage).2⟩⟩

/-- When a page is missing, the supply was short, and is empty now. -/
theorem Feeds.short {st₁ : PageTables} {k : ℕ} (h : Feeds k st st₁) (h' : Feeds 1 st₁ st')
    (hpage : st₁.takePage.2 = 0) : 0 ∈ st.supply ∨ st.supply.length ≤ k ∧ st'.supply = [] := by
  obtain ⟨used, hused, hlen, -⟩ := h.uses
  obtain ⟨used', hused', -, -⟩ := h'.uses
  cases hsupply : st₁.supply with
  | nil =>
    rw [hsupply] at hused hused'
    rw [hused, List.append_nil]
    exact .inr ⟨hlen, (List.append_eq_nil_iff.mp hused'.symm).2⟩
  | cons page rest =>
    have hzero : page = 0 := by simpa [PageTables.takePage, hsupply] using hpage
    rw [hused, hsupply, hzero]
    exact .inl (by simp)

theorem createEntry_feeds (ht : TreeTables st) (hs : FreshSupply st) (virt : ℕ) :
    ∃ st', Feeds 3 st st' ∧ ((∃ t, createEntry st virt =
        (st', .ok (t * pageSize + 8 * tableIndex virt 12)) ∧
        st'.tableAt (tablePath virt) = some t) ∨
      createEntry st virt = (st', .error (-enomem)) ∧
        (0 ∈ st.supply ∨ st.supply.length ≤ 2 ∧ st'.supply = [])) := by
  have hroot : st.tableAt [] = some st.frame := rfl
  have hlonger {k : ℕ} {l : List ℕ} (hk : k ≤ 2)
      (h : 0 ∈ st.supply ∨ st.supply.length ≤ k ∧ l = []) :
      0 ∈ st.supply ∨ st.supply.length ≤ 2 ∧ l = [] :=
    h.imp_right fun h => ⟨h.1.trans hk, h.2⟩
  unfold createEntry
  rw [← st.root_frame]
  obtain ⟨st₁, hf₁, ⟨t₁, he₁, ht₁⟩ | ⟨he₁, hp₁⟩⟩ :=
    ensureNextTable_feeds (i := indexAt virt 39) ht hs hroot (by decide)
  · obtain ⟨st₂, hf₂, ⟨t₂, he₂, ht₂⟩ | ⟨he₂, hp₂⟩⟩ :=
      ensureNextTable_feeds (i := indexAt virt 30) hf₁.grows.shaped hf₁.grows.fresh ht₁ (by simp)
    · have hf₁₂ := hf₁.trans hf₂
      obtain ⟨st₃, hf₃, ⟨t₃, he₃, ht₃⟩ | ⟨he₃, hp₃⟩⟩ :=
        ensureNextTable_feeds (i := indexAt virt 21) hf₂.grows.shaped hf₂.grows.fresh ht₂ (by simp)
      · refine ⟨st₃, hf₁₂.trans hf₃, .inl ⟨t₃, ?_, ht₃⟩⟩
        rw [show ensureNextTable st _ (tableIndex virt 39) = _ from he₁, withTable]
        rw [show ensureNextTable st₁ _ (tableIndex virt 30) = _ from he₂, withTable]
        rw [show ensureNextTable st₂ _ (tableIndex virt 21) = _ from he₃, withTable]
      · refine ⟨st₃, hf₁₂.trans hf₃, .inr ⟨?_, hf₁₂.short hf₃ hp₃⟩⟩
        rw [show ensureNextTable st _ (tableIndex virt 39) = _ from he₁, withTable]
        rw [show ensureNextTable st₁ _ (tableIndex virt 30) = _ from he₂, withTable]
        rw [show ensureNextTable st₂ _ (tableIndex virt 21) = _ from he₃, withTable]
    · refine ⟨st₂, (hf₁.trans hf₂).mono (by decide), .inr ⟨?_, ?_⟩⟩
      · rw [show ensureNextTable st _ (tableIndex virt 39) = _ from he₁, withTable]
        rw [show ensureNextTable st₁ _ (tableIndex virt 30) = _ from he₂, withTable]
      · exact hlonger (by decide) (hf₁.short hf₂ hp₂)
  · refine ⟨st₁, hf₁.mono (by decide), .inr ⟨?_, ?_⟩⟩
    · rw [show ensureNextTable st _ (tableIndex virt 39) = _ from he₁, withTable]
    · exact hlonger (by decide) ((Feeds.refl ht hs).short hf₁ hp₁)

end Growing

/-! ### Lookups -/

section Lookup
variable {st : PageTables} {virt t e : ℕ}

/-- One step of the walk without `create`. -/
theorem entryFrame_cases (e : ℕ) : (isPresent e = false ∧ entryFrame e = none) ∨
    (isPresent e = true ∧ ∃ t, entryFrame e = some t ∧ entryTable e = t * pageSize) := by
  cases hpres : isPresent e with
  | false => exact .inl ⟨rfl, by simp [entryFrame, hpres]⟩
  | true => exact .inr ⟨rfl, _, by simp [entryFrame, hpres], (entryTable_frame e).symm⟩

theorem findEntry_eq (st : PageTables) (virt : ℕ) : findEntry st.mem st.root virt =
    ((st.tableAt (tablePath virt)).map fun t => t * pageSize + 8 * tableIndex virt 12).elim
      (.error (-enoent)) .ok := by
  unfold findEntry PageTables.tableAt tablePath
  rw [← st.root_frame]
  have hword (t : ℕ) (shift : ℕ) : tableWord st.mem (t * pageSize) (tableIndex virt shift) =
      frameWord st.mem t (indexAt virt shift) := rfl
  simp only [table, hword]
  rcases entryFrame_cases (frameWord st.mem st.frame (indexAt virt 39)) with
    ⟨hp₄, hn₄⟩ | ⟨hp₄, t₃, hn₄, ht₃⟩
  · simp [hp₄, hn₄]
  · rw [ht₃, hn₄]
    simp only [hp₄, hword]
    rcases entryFrame_cases (frameWord st.mem t₃ (indexAt virt 30)) with
      ⟨hp₃, hn₃⟩ | ⟨hp₃, t₂, hn₃, ht₂⟩
    · simp [hp₃, hn₃]
    · rw [ht₂]
      simp only [hp₃, hword]
      rcases entryFrame_cases (frameWord st.mem t₂ (indexAt virt 21)) with
        ⟨hp₂, hn₂⟩ | ⟨hp₂, t₁, hn₂, ht₁⟩
      · simp [hp₂, hn₃, hn₂]
      · simp [hp₂, hn₃, hn₂, ht₁]

theorem leafOf_eq (h : st.tableAt (tablePath virt) = some t) :
    st.leafOf virt = if isPresent (load st.mem (t * pageSize + 8 * tableIndex virt 12) 8) then
      some (load st.mem (t * pageSize + 8 * tableIndex virt 12) 8) else none := by
  rw [PageTables.leafOf, leaf, show table _ _ _ (tablePath virt) = some t from h]
  have hword : frameWord st.mem t (indexAt virt 12) =
      load st.mem (t * pageSize + 8 * tableIndex virt 12) 8 := rfl
  rw [← hword]
  rcases entryFrame_cases (frameWord st.mem t (indexAt virt 12)) with ⟨hp, hn⟩ | ⟨hp, t', hn, -⟩ <;>
    simp [hp, hn]

theorem leafOf_eq_none (h : st.tableAt (tablePath virt) = none) : st.leafOf virt = none := by
  rw [PageTables.leafOf, leaf, show table _ _ _ (tablePath virt) = none from h]
  rfl

/-- `virt_to_phys` reads the leaf entry. -/
theorem virtToPhys_eq (st : PageTables) (virt : ℕ) : virtToPhys st virt true =
    ((st.leafOf virt).map fun e => (e &&& x86PageMask) ||| (virt &&& (pageSize - 1))).elim
      (.error (-enoent)) .ok := by
  rw [virtToPhys, if_neg (by simp), findEntry_eq]
  cases htable : st.tableAt (tablePath virt) with
  | none =>
    rw [leafOf_eq_none htable]
    rfl
  | some t =>
    rw [leafOf_eq htable]
    simp only [Option.map_some, Option.elim_some]
    cases isPresent (load st.mem (t * pageSize + 8 * tableIndex virt 12) 8) <;> rfl

theorem tableIndex_eq (virt shift : ℕ) : tableIndex virt shift = virt / 2 ^ shift % 512 := by
  rw [tableIndex, Nat.shiftRight_eq_div_pow]
  exact Nat.and_two_pow_sub_one_eq_mod _ 9

theorem tableIndex_page (virt k : ℕ) :
    tableIndex virt (12 + k) = virt / pageSize / 2 ^ k % 512 := by
  rw [tableIndex_eq, Nat.pow_add, ← Nat.div_div_eq_div_mul]
  rfl

/-- Addresses on one page have the same leaf entry. -/
theorem leafOf_congr {u v : ℕ} (h : u / pageSize = v / pageSize) : st.leafOf u = st.leafOf v := by
  have hindex (k : ℕ) : indexAt u (12 + k) = indexAt v (12 + k) :=
    Fin.ext (by simp only [indexAt, tableIndex_page, h])
  rw [PageTables.leafOf, PageTables.leafOf, tablePath, tablePath, hindex 27, hindex 18, hindex 9,
    hindex 0]

theorem digits_eq (q : ℕ) : q % 2 ^ 36 = q / 2 ^ 0 % 512 + 2 ^ 9 * (q / 2 ^ 9 % 512) +
    2 ^ 18 * (q / 2 ^ 18 % 512) + 2 ^ 27 * (q / 2 ^ 27 % 512) := by
  have h₁₈ : q / 2 ^ 18 = q / 2 ^ 9 / 2 ^ 9 := by rw [Nat.div_div_eq_div_mul, ← Nat.pow_add]
  have h₂₇ : q / 2 ^ 27 = q / 2 ^ 9 / 2 ^ 9 / 2 ^ 9 := by
    rw [Nat.div_div_eq_div_mul, Nat.div_div_eq_div_mul, ← Nat.pow_add, ← Nat.pow_add]
  rw [h₁₈, h₂₇, Nat.pow_zero, Nat.div_one]
  omega

/-- Four indices separate any two canonical pages. -/
theorem path_injective {u v : ℕ} (hu : Canonical u) (hv : Canonical v)
    (hne : u / pageSize ≠ v / pageSize) : tablePath u ≠ tablePath v ∨ indexAt u 12 ≠ indexAt v 12 := by
  by_contra hsame
  obtain ⟨hpath, hlast⟩ : tablePath u = tablePath v ∧ indexAt u 12 = indexAt v 12 := by
    simpa [not_or] using hsame
  simp only [tablePath, List.cons.injEq, and_true] at hpath
  obtain ⟨h₄, h₃, h₂⟩ := hpath
  have hidx {k : ℕ} (he : indexAt u (12 + k) = indexAt v (12 + k)) :
      u / pageSize / 2 ^ k % 512 = v / pageSize / 2 ^ k % 512 := by
    have hval := congrArg Fin.val he
    simpa only [indexAt, tableIndex_page] using hval
  have hmod : u / pageSize % 2 ^ 36 = v / pageSize % 2 ^ 36 := by
    rw [digits_eq, digits_eq (v / pageSize), hidx (k := 27) h₄, hidx (k := 18) h₃,
      hidx (k := 9) h₂, hidx (k := 0) hlast]
  have hpages : ∀ w, Canonical w → w / pageSize < 2 ^ 35 ∨
      2 ^ 52 - 2 ^ 35 ≤ w / pageSize ∧ w / pageSize < 2 ^ 52 := by
    intro w hw
    simp only [Canonical, pageSize] at *
    omega
  have hpu := hpages u hu
  have hpv := hpages v hv
  generalize u / pageSize = a at *
  generalize v / pageSize = b at *
  omega

end Lookup

/-! ### Writing a leaf entry -/

section Leaf
variable {st : PageTables} {virt t w : ℕ}

theorem setLeaf_spec (ht : TreeTables st) (hpath : st.tableAt (tablePath virt) = some t)
    (hw : w < 2 ^ 64) :
    TreeTables (st.setWord (t * pageSize + 8 * tableIndex virt 12) w) ∧
      (st.setWord (t * pageSize + 8 * tableIndex virt 12) w).leafOf virt =
        (if isPresent w then some w else none) ∧
      (∀ u, Canonical u → Canonical virt → u / pageSize ≠ virt / pageSize →
        (st.setWord (t * pageSize + 8 * tableIndex virt 12) w).leafOf u = st.leafOf u) ∧
      ∀ p, p.length ≤ 3 →
        (st.setWord (t * pageSize + 8 * tableIndex virt 12) w).tableAt p = st.tableAt p := by
  have hlen : (tablePath virt).length = 3 := rfl
  have hsame (t' : ℕ) (j : Fin 512) (hne : t' ≠ t ∨ j ≠ indexAt virt 12) :
      frameWord (st.setWord (t * pageSize + 8 * tableIndex virt 12) w).mem t' j =
        frameWord st.mem t' j := frameWord_store_of_ne (i := indexAt virt 12) hne
  obtain ⟨htable, htree, hleaf⟩ := ht.distinct.set_leaf hpath hlen hsame
  refine ⟨⟨htree, fun p t' hp hpt j hpres => ?_⟩, ?_, fun u hu hv hne => ?_, htable⟩
  · have hpt' : st.tableAt p = some t' := (htable p (by omega)).symm.trans hpt
    have hword : t' ≠ t := by
      rintro rfl
      have hpp := ht.distinct p (tablePath virt) t' (by omega) hlen.le hpt' hpath
      rw [hpp, hlen] at hp
      omega
    rw [hsame t' j (.inl hword)] at hpres ⊢
    exact ht.noLarge p t' hp hpt' j hpres
  · have hpath' : (st.setWord (t * pageSize + 8 * tableIndex virt 12) w).tableAt
        (tablePath virt) = some t := (htable _ hlen.le).trans hpath
    rw [leafOf_eq hpath']
    have hload : load (st.setWord (t * pageSize + 8 * tableIndex virt 12) w).mem
        (t * pageSize + 8 * tableIndex virt 12) 8 = w := load_store_of_lt (by simpa using hw)
    rw [hload]
  · exact hleaf _ _ rfl (path_injective hu hv hne)

theorem ensureNextTable_of_present {i : Fin 512} {t' : ℕ}
    (h : entryFrame (frameWord st.mem t i) = some t') :
    ensureNextTable st (t * pageSize) i = (st, .ok (t' * pageSize)) := by
  rcases entryFrame_cases (frameWord st.mem t i) with ⟨-, hn⟩ | ⟨hp, t₁, hn, ht₁⟩
  · rw [hn] at h
    cases h
  · obtain rfl := Option.some.inj (hn.symm.trans h)
    rw [← ht₁]
    exact if_pos hp

/-- Where all tables exist, `page_entry` changes nothing. -/
theorem createEntry_of_table (h : st.tableAt (tablePath virt) = some t) :
    createEntry st virt = (st, .ok (t * pageSize + 8 * tableIndex virt 12)) := by
  simp only [PageTables.tableAt, tablePath, table, Option.bind_eq_some_iff, Option.some.injEq] at h
  obtain ⟨t₃, h₃, t₂, h₂, t₁, h₁, rfl⟩ := h
  have he₃ : ensureNextTable st (st.frame * pageSize) (tableIndex virt 39) =
      (st, .ok (t₃ * pageSize)) := ensureNextTable_of_present (i := indexAt virt 39) h₃
  have he₂ : ensureNextTable st (t₃ * pageSize) (tableIndex virt 30) =
      (st, .ok (t₂ * pageSize)) := ensureNextTable_of_present (i := indexAt virt 30) h₂
  have he₁ : ensureNextTable st (t₂ * pageSize) (tableIndex virt 21) =
      (st, .ok (t₁ * pageSize)) := ensureNextTable_of_present (i := indexAt virt 21) h₁
  rw [createEntry, ← st.root_frame, he₃, withTable, he₂, withTable, he₁, withTable]

end Leaf

/-! ### Mapping and unmapping -/

/-- What `map_page` can do to the partial map. -/
inductive MapOutcome (st st' : PageTables) (virt phys flags : ℕ) : ℤ → Prop
  | mapped : st.leafOf virt = none → st'.leafOf virt = some (leafEntry phys flags) →
      MapOutcome st st' virt phys flags 0
  | alreadyMapped : (st.leafOf virt).isSome = true → st'.leafOf virt = st.leafOf virt →
      MapOutcome st st' virt phys flags (-eexist)
  | noMemory : st.leafOf virt = none → st'.leafOf virt = none →
      MapOutcome st st' virt phys flags (-enomem)

section Operations
variable {st : PageTables} {virt phys flags : ℕ}

/-- Tables that stay as they are use nothing more. -/
theorem Uses.congr {st st' st'' : PageTables} {k : ℕ} (h : Uses k st st')
    (hsupply : st''.supply = st'.supply)
    (htable : ∀ p, p.length ≤ 3 → st''.tableAt p = st'.tableAt p) : Uses k st st'' := by
  obtain ⟨used, hused, hlen, hnew⟩ := h
  exact ⟨used, hsupply ▸ hused, hlen, fun p t hp ht => hnew p t hp ((htable p hp).symm.trans ht)⟩

theorem mapPage_spec (ht : TreeTables st) (hs : FreshSupply st) (hv : pageSize ∣ virt)
    (hp : pageSize ∣ phys) (hlt : phys < 2 ^ 52) (hf : MapFlags flags) :
    TreeTables (mapPage st virt phys flags).1 ∧
      MapOutcome st (mapPage st virt phys flags).1 virt phys flags (mapPage st virt phys flags).2 ∧
      (∀ u, Canonical u → Canonical virt → u / pageSize ≠ virt / pageSize →
        (mapPage st virt phys flags).1.leafOf u = st.leafOf u) ∧
      Uses 3 st (mapPage st virt phys flags).1 ∧
      ((mapPage st virt phys flags).2 = -enomem → 0 ∈ st.supply ∨
        st.supply.length ≤ 2 ∧ (mapPage st virt phys flags).1.supply = []) := by
  have haligned : ¬ (virt &&& (pageSize - 1) ≠ 0 ∨ phys &&& (pageSize - 1) ≠ 0) := by
    rw [land_pageOffset_of_dvd hv, land_pageOffset_of_dvd hp]
    simp
  rw [mapPage, if_neg haligned]
  obtain ⟨st₁, ⟨hg, huses⟩, ⟨t, hcreate, htable⟩ | ⟨hcreate, hshort⟩⟩ :=
    createEntry_feeds ht hs virt
  · rw [hcreate]
    have hleaf₁ : st₁.leafOf virt = st.leafOf virt := hg.leaf _ _ rfl
    have hword := leafOf_eq htable
    simp only
    cases hpres : isPresent (load st₁.mem (t * pageSize + 8 * tableIndex virt 12) 8) with
    | true =>
      rw [hpres, if_pos rfl] at hword
      rw [if_pos rfl]
      exact ⟨hg.shaped, .alreadyMapped (by rw [← hleaf₁, hword]; rfl) hleaf₁,
        fun u _ _ _ => hg.leaf _ _ rfl, huses, by simp [eexist, enomem]⟩
    | false =>
      rw [hpres, if_neg (by simp)] at hword
      rw [if_neg (by simp)]
      obtain ⟨hpres', -, -, hlt'⟩ := leafEntry_spec hp hlt hf
      obtain ⟨hshape, hset, hother, hsame⟩ := setLeaf_spec hg.shaped htable hlt'
      refine ⟨hshape, .mapped (hleaf₁.symm.trans hword) ?_, fun u hu hv' hne => ?_,
        huses.congr rfl hsame, by simp [enomem]⟩
      · exact hset.trans (if_pos hpres')
      · exact (hother u hu hv' hne).trans (hg.leaf _ _ rfl)
  · rw [hcreate]
    have hleaf₁ : st₁.leafOf virt = st.leafOf virt := hg.leaf _ _ rfl
    have hnone : st.leafOf virt = none := by
      cases htable : st.tableAt (tablePath virt) with
      | none => exact leafOf_eq_none htable
      | some t =>
        rw [createEntry_of_table htable] at hcreate
        cases hcreate
    exact ⟨hg.shaped, .noMemory hnone (hleaf₁.trans hnone), fun u _ _ _ => hg.leaf _ _ rfl, huses,
      fun _ => hshort⟩

theorem unmapPage_spec (ht : TreeTables st) (hv : pageSize ∣ virt) :
    TreeTables (unmapPage st virt).1 ∧ (unmapPage st virt).1.leafOf virt = none ∧
      (unmapPage st virt).2 = (if (st.leafOf virt).isSome then 0 else -enoent) ∧
      (∀ u, Canonical u → Canonical virt → u / pageSize ≠ virt / pageSize →
        (unmapPage st virt).1.leafOf u = st.leafOf u) ∧ Uses 0 st (unmapPage st virt).1 := by
  have hstay : Uses 0 st st := ⟨[], rfl, le_rfl, fun _ _ _ h => .inl h⟩
  have haligned : ¬ virt &&& (pageSize - 1) ≠ 0 := by
    rw [land_pageOffset_of_dvd hv]
    simp
  rw [unmapPage, if_neg haligned, findEntry_eq]
  cases htable : st.tableAt (tablePath virt) with
  | none =>
    have hnone := leafOf_eq_none htable
    simp only [Option.map_none, Option.elim_none]
    exact ⟨ht, hnone, by rw [hnone]; rfl, fun _ _ _ _ => trivial, hstay⟩
  | some t =>
    have hword := leafOf_eq htable
    simp only [Option.map_some, Option.elim_some]
    cases hpres : isPresent (load st.mem (t * pageSize + 8 * tableIndex virt 12) 8) with
    | false =>
      rw [hpres, if_neg (by simp)] at hword
      rw [if_pos rfl]
      exact ⟨ht, hword, by simp [hword], fun _ _ _ _ => rfl, hstay⟩
    | true =>
      rw [hpres, if_pos rfl] at hword
      obtain ⟨hshape, hset, hother, hsame⟩ := setLeaf_spec (w := 0) ht htable (by decide)
      exact ⟨hshape, hset, by simp [hword], hother, hstay.congr rfl hsame⟩

end Operations

/-! ### Runs -/

inductive TableAction where
  /-- `map_page`, with what `alloc_page` will return. -/
  | map (virt phys flags : ℕ) (supply : List ℕ)
  | unmap (virt : ℕ)

namespace PageTables

def withSupply (st : PageTables) (supply : List ℕ) : PageTables := { st with supply := supply }

def step (st : PageTables) : TableAction → Except Stop PageTables
  | .map virt phys flags supply => .ok (mapPage (st.withSupply supply) virt phys flags).1
  | .unmap virt => .ok (unmapPage st virt).1

/-- The calls that are made: canonical pages, physical pages below `2 ^ 52`, and an
`alloc_page` that returns no page that is a table already. -/
def Admissible (st : PageTables) : TableAction → Prop
  | .map virt phys flags supply => Canonical virt ∧ pageSize ∣ virt ∧ pageSize ∣ phys ∧
      phys < 2 ^ 52 ∧ MapFlags flags ∧ FreshSupply (st.withSupply supply)
  | .unmap virt => Canonical virt ∧ pageSize ∣ virt

/-- The states after any such calls, from tables that form a tree without large pages. -/
def Reachable : PageTables → Prop := Reach step TreeTables Admissible

/-- Translation is the same outside the page of `virt`. -/
def SameElsewhere (st st' : PageTables) (virt : ℕ) : Prop :=
  ∀ u, Canonical u → u / pageSize ≠ virt / pageSize → virtToPhys st' u true = virtToPhys st u true

end PageTables

section
variable {st st' : PageTables} {virt phys o : ℕ}

theorem TreeTables.withSupply (h : TreeTables st) (supply : List ℕ) :
    TreeTables (st.withSupply supply) := ⟨h.distinct, h.noLarge⟩

/-- The tables stay a tree in every run. -/
theorem PageTables.Reachable.tree (h : st.Reachable) : TreeTables st := by
  refine Reach.invariant (I := TreeTables) h (fun _ h => h) ?_
  rintro st act st' ht ha hs
  cases act with
  | map virt phys flags supply =>
    obtain ⟨-, hv, hp, hlt, hf, hfresh⟩ := ha
    obtain rfl := Except.ok.inj hs
    exact (mapPage_spec (ht.withSupply supply) hfresh hv hp hlt hf).1
  | unmap virt =>
    obtain rfl := Except.ok.inj hs
    exact (unmapPage_spec ht ha.2).1

/-- What is left of a fresh supply is fresh, together with pages that were kept aside. -/
theorem Uses.fresh {kept : List ℕ} {k : ℕ} (h : Uses k st st')
    (hs : FreshSupply (st.withSupply (kept ++ st.supply))) :
    FreshSupply (st'.withSupply (kept ++ st'.supply)) := by
  obtain ⟨used, hused, -, hnew⟩ := h
  have hperm : ((kept ++ st.supply).filter (· ≠ 0)).Perm
      (used.filter (· ≠ 0) ++ (kept ++ st'.supply).filter (· ≠ 0)) := by
    rw [hused, ← List.filter_append]
    exact (List.perm_append_comm_assoc _ _ _).filter _
  obtain ⟨-, hnodup, hdisjoint⟩ := List.nodup_append.mp (hperm.nodup_iff.mp hs.nodup)
  refine ⟨hnodup, fun page hpage hne => ?_⟩
  have hmem : page ∈ kept ++ st.supply := by
    rw [hused]
    rcases List.mem_append.mp hpage with hkept | hrest
    · exact List.mem_append_left _ hkept
    · exact List.mem_append_right _ (List.mem_append_right _ hrest)
  obtain ⟨hdvd, hlt, hold⟩ := hs.fresh page hmem hne
  refine ⟨hdvd, hlt, fun p hp htable => ?_⟩
  rcases hnew p _ hp htable with ht | hin
  · exact hold p hp ht
  · rw [Nat.div_mul_cancel hdvd] at hin
    exact hdisjoint page (List.mem_filter.mpr ⟨hin, by simpa using hne⟩) page
      (List.mem_filter.mpr ⟨hpage, by simpa using hne⟩) rfl

theorem same_of_leafOf (h : ∀ u, Canonical u → Canonical virt → u / pageSize ≠ virt / pageSize →
    st'.leafOf u = st.leafOf u) (hv : Canonical virt) : st.SameElsewhere st' virt := by
  intro u hu hne
  rw [virtToPhys_eq, virtToPhys_eq, h u hu hv hne]

theorem page_offset (hv : pageSize ∣ virt) (ho : o < pageSize) :
    (virt + o) / pageSize = virt / pageSize ∧ (virt + o) % pageSize = o := by
  simp only [pageSize] at *
  omega

/-- The translation of the addresses on a page with the leaf entry of `map_page`. -/
theorem virtToPhys_of_leaf {flags : ℕ} (h : st.leafOf virt = some (leafEntry phys flags))
    (hv : pageSize ∣ virt) (hp : pageSize ∣ phys) (hlt : phys < 2 ^ 52) (hf : MapFlags flags)
    (ho : o < pageSize) : virtToPhys st (virt + o) true = .ok (phys + o) := by
  obtain ⟨hpage, hoff⟩ := page_offset hv ho
  obtain ⟨k, rfl⟩ := hp
  have hor : pageSize * k ||| o = pageSize * k + o :=
    (Nat.two_pow_add_eq_or_of_lt (i := 12) ho k).symm
  rw [virtToPhys_eq, leafOf_congr hpage, h, Option.map_some, (leafEntry_spec ⟨k, rfl⟩ hlt hf).2.1,
    land_pageOffset, hoff, hor]
  rfl

theorem virtToPhys_of_none (h : st.leafOf virt = none) (hv : pageSize ∣ virt) (ho : o < pageSize) :
    virtToPhys st (virt + o) true = .error (-enoent) := by
  rw [virtToPhys_eq, leafOf_congr (page_offset hv ho).1, h]
  rfl

/-- The entry that `page_entry` finds is the leaf entry. -/
theorem findEntry_of_leaf {e : ℕ} (h : st.leafOf virt = some e) :
    ∃ a, findEntry st.mem st.root virt = .ok a ∧ load st.mem a 8 = e := by
  cases htable : st.tableAt (tablePath virt) with
  | none =>
    rw [leafOf_eq_none htable] at h
    cases h
  | some t =>
    rw [leafOf_eq htable] at h
    split at h
    · refine ⟨_, by rw [findEntry_eq, htable]; rfl, Option.some.inj h⟩
    · cases h

end

/-- `map_page`, `unmap_page` and `virt_to_phys` refine a partial map from virtual to physical
pages, in every state of every run. -/
theorem page_tables_refine {st : PageTables} (h : st.Reachable) :
    (∀ virt phys flags supply, st.Admissible (.map virt phys flags supply) →
      let r := mapPage (st.withSupply supply) virt phys flags
      (r.2 = 0 ∨ r.2 = -eexist ∨ r.2 = -enomem) ∧
      (r.2 = 0 → (∀ o < pageSize, virtToPhys r.1 (virt + o) true = .ok (phys + o)) ∧
        ∃ a, findEntry r.1.mem r.1.root virt = .ok a ∧
          load r.1.mem a 8 &&& (pageWritable ||| pageNoExecute) = flags) ∧
      (∀ q, virtToPhys st virt true = .ok q → r.2 = -eexist) ∧
      (r.2 ≠ 0 → ∀ o < pageSize, virtToPhys r.1 (virt + o) true = virtToPhys st (virt + o) true) ∧
      st.SameElsewhere r.1 virt) ∧
    ∀ virt, st.Admissible (.unmap virt) →
      let r := unmapPage st virt
      (∀ o < pageSize, virtToPhys r.1 (virt + o) true = .error (-enoent)) ∧
      st.SameElsewhere r.1 virt := by
  have hinv := h.tree
  refine ⟨?_, ?_⟩
  · rintro virt phys flags supply ⟨hcan, hv, hp, hlt, hf, hfresh⟩
    obtain ⟨-, hout, hother, -⟩ := mapPage_spec (hinv.withSupply supply) hfresh hv hp hlt hf
    have hsame : st.SameElsewhere (mapPage (st.withSupply supply) virt phys flags).1 virt :=
      same_of_leafOf hother hcan
    have hbefore : (st.withSupply supply).leafOf virt = st.leafOf virt := rfl
    -- The translation of the page follows its leaf entry.
    have hkeep {st' : PageTables} (he : st'.leafOf virt = st.leafOf virt) (o : ℕ) (ho : o < pageSize) :
        virtToPhys st' (virt + o) true = virtToPhys st (virt + o) true := by
      rw [virtToPhys_eq, virtToPhys_eq, leafOf_congr (page_offset hv ho).1,
        leafOf_congr (page_offset hv ho).1, he]
    have hmapped {q : ℕ} (hq : virtToPhys st virt true = .ok q) : st.leafOf virt ≠ none := by
      intro hnone
      rw [virtToPhys_eq, hnone] at hq
      cases hq
    simp only
    generalize mapPage (st.withSupply supply) virt phys flags = r at *
    obtain ⟨st', ret⟩ := r
    cases hout with
    | mapped hnone hnew =>
      refine ⟨.inl rfl, fun _ => ⟨fun o ho => virtToPhys_of_leaf hnew hv hp hlt hf ho, ?_⟩,
        fun q hq => absurd (hbefore.symm.trans hnone) (hmapped hq), by simp, hsame⟩
      obtain ⟨a, ha, hload⟩ := findEntry_of_leaf hnew
      exact ⟨a, ha, by rw [hload]; exact (leafEntry_spec hp hlt hf).2.2.1⟩
    | alreadyMapped hsome hnew =>
      exact ⟨.inr (.inl rfl), by simp, fun _ _ => rfl, fun _ => hkeep (hnew.trans hbefore),
        hsame⟩
    | noMemory hnone hnew =>
      exact ⟨.inr (.inr rfl), by simp,
        fun q hq => absurd (hbefore.symm.trans hnone) (hmapped hq),
        fun _ => hkeep (hnew.trans (hnone.symm.trans hbefore)), hsame⟩
  · rintro virt ⟨hcan, hv⟩
    obtain ⟨-, hnone, -, hother, -⟩ := unmapPage_spec hinv hv
    exact ⟨fun o ho => virtToPhys_of_none hnone hv ho, same_of_leafOf hother hcan⟩

/-- An empty root. -/
def emptyTables : PageTables := ⟨fun _ => 0, pageSize, [], []⟩

theorem emptyTables_word (t : ℕ) (i : Fin 512) : frameWord emptyTables.mem t i = 0 := by
  simp [frameWord, tableWord, emptyTables, load]

theorem emptyTables_path {p : List (Fin 512)} {t : ℕ} (hp : emptyTables.tableAt p = some t) :
    p = [] ∧ t = 1 := by
  cases p with
  | nil => exact ⟨rfl, (Option.some.inj hp).symm.trans (by decide)⟩
  | cons i p =>
    rw [PageTables.tableAt, table, emptyTables_word] at hp
    cases hp

theorem emptyTables_tree : TreeTables emptyTables := by
  refine ⟨fun p q t _ _ hp hq => (emptyTables_path hp).1.trans (emptyTables_path hq).1.symm,
    fun p t _ _ i hpres => ?_⟩
  rw [emptyTables_word] at hpres
  cases hpres

theorem emptyTables_fresh {supply : List ℕ} (hnodup : supply.Nodup)
    (hpages : ∀ page ∈ supply, pageSize ∣ page ∧ page < 2 ^ 52 ∧ pageSize < page) :
    FreshSupply (emptyTables.withSupply supply) := by
  refine ⟨hnodup.filter _, fun page hpage _ => ?_⟩
  obtain ⟨hdvd, hlt, hgt⟩ := hpages page hpage
  refine ⟨hdvd, hlt, fun p _ hp => ?_⟩
  have hone := (emptyTables_path hp).2
  simp only [pageSize] at *
  omega

theorem page_tables_refine_empty :
    emptyTables.Admissible (.map 0x400000 0x8000 pageWritable [0x2000, 0x3000, 0x4000]) ∧
    emptyTables.SameElsewhere (mapPage (emptyTables.withSupply [0x2000, 0x3000, 0x4000]) 0x400000
      0x8000 pageWritable).1 0x400000 := by
  have hfresh : FreshSupply (emptyTables.withSupply [0x2000, 0x3000, 0x4000]) :=
    emptyTables_fresh (by decide) (by decide)
  have hadm : emptyTables.Admissible
      (.map 0x400000 0x8000 pageWritable [0x2000, 0x3000, 0x4000]) :=
    ⟨.inl (by decide), by decide, by decide, by decide, by simp [MapFlags], hfresh⟩
  exact ⟨hadm, ((page_tables_refine (.start emptyTables_tree)).1 _ _ _ _ hadm).2.2.2.2⟩

end Tianole.Mm
