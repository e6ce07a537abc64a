import Tianole.Mm.PageMap

/-! `map_page` when it fails. The tables are laid along the path of an address one after the
other, each cleared before it is linked: so however far the call comes, no translation changes,
and what it has laid is there for the next call. -/
namespace Tianole.Mm
open Memory Bits Radix Runs

/-- The steps of `page_entry` with `create` along a path of indices. -/
def ensureTables (st : PageTables) (table : ℕ) : List (Fin 512) → PageTables × Except ℤ ℕ
  | [] => (st, .ok table)
  | i :: p => withTable (ensureNextTable st table i) fun st next => ensureTables st next p

theorem withTable_ok (st : PageTables) (table : ℕ)
    (f : PageTables → ℕ → PageTables × Except ℤ ℕ) : withTable (st, .ok table) f = f st table := rfl

theorem createEntry_eq (st : PageTables) (virt : ℕ) : createEntry st virt =
    withTable (ensureTables st st.root (tablePath virt)) fun st pt =>
      (st, .ok (pt + 8 * tableIndex virt 12)) := by
  simp only [createEntry, ensureTables, tablePath, indexAt, withTable_assoc, withTable_ok]

namespace PageTables

/-- The number of tables that are missing on a path. -/
def lacks (st : PageTables) (path : List (Fin 512)) : ℕ :=
  missing entryFrame (frameWord st.mem) st.frame path

/-- Page frame `f` is a table on the path. Its words are 0, but for the one that leads on to the
next table of the path. -/
def OnPath (st : PageTables) (path : List (Fin 512)) (f : ℕ) : Prop :=
  ∃ r i s, path = r ++ i :: s ∧ st.tableAt (r ++ [i]) = some f ∧ ∀ j, frameWord st.mem f j = 0 ∨
    ∃ f' s', s = j :: s' ∧ frameWord st.mem f j = makeTableEntry (f' * pageSize) ∧
      st.tableAt (r ++ [i] ++ [j]) = some f'

end PageTables

/-- `st'` comes from `st` by laying tables in page frames `frames` along the path; `rest` is what
`alloc_page` would have returned next. -/
structure Laid (st st' : PageTables) (path : List (Fin 512)) (frames rest : List ℕ) : Prop where
  grows : Grows st st'
  supply : st.supply = frames.map (· * pageSize) ++ rest
  pages : ∀ f ∈ frames, f * pageSize ≠ 0
  count : st'.lacks path + frames.length = st.lacks path
  linked : ∀ f ∈ frames, st'.OnPath path f
  /-- Of the other pages at most words on the path have changed, to lead to a table. -/
  words : ∀ t j, t ∉ frames → frameWord st'.mem t j = frameWord st.mem t j ∨
    ∃ r s f, path = r ++ j :: s ∧ st.tableAt r = some t ∧
      frameWord st'.mem t j = makeTableEntry (f * pageSize) ∧ st'.tableAt (r ++ [j]) = some f

section
variable {st st' st₁ : PageTables} {path p q : List (Fin 512)} {frames rest : List ℕ}
  {t f : ℕ} {i : Fin 512}

theorem Laid.refl (ht : TreeTables st) (hs : FreshSupply st) : Laid st st path [] st.supply :=
  ⟨.refl ht hs, rfl, by simp, rfl, by simp, fun _ _ _ => .inl rfl⟩

theorem Laid.takePage (ht : TreeTables st) (hs : FreshSupply st) :
    Laid st st.takePage.1 path [] st.supply :=
  ⟨grows_takePage ht hs, rfl, by simp, rfl, by simp, fun _ _ _ => .inl rfl⟩

/-- A table in the first frame, with the tables that follow it. -/
theorem Laid.cons (hins : Inserted st st₁ p i t f) (hzero : ∀ j, frameWord st₁.mem f j = 0)
    (ht : TreeTables st) (hs : FreshSupply st) {after : List ℕ}
    (hsupply : st.supply = f * pageSize :: after) (hf : f * pageSize ≠ 0)
    (hlen : (p ++ i :: q).length ≤ 3) (h : Laid st₁ st' (p ++ i :: q) frames rest) :
    Laid st st' (p ++ i :: q) (f :: frames) rest := by
  obtain ⟨hgrows, hnew⟩ := hins.grows ht hs hsupply hf
  have hshort {r s : List (Fin 512)} {j : Fin 512} (he : p ++ i :: q = r ++ j :: s) :
      r.length ≤ 3 := by
    have hlength := congrArg List.length he
    rw [List.length_append, List.length_cons] at hlength
    simp only [List.length_append, List.length_cons] at *
    omega
  have hpath : (p ++ [i]).length ≤ 3 := by
    simp only [List.length_append, List.length_cons, List.length_nil] at *
    omega
  have hfresh : f ∉ frames := by
    intro hmem
    have hin : f * pageSize ∈ st₁.supply := by
      rw [h.supply]
      exact List.mem_append_left _ (List.mem_map_of_mem hmem)
    have hnot := (hgrows.fresh.fresh _ hin hf).2.2 _ hpath
    rw [Nat.mul_div_cancel _ (by decide)] at hnot
    exact hnot hnew
  have hframe : st₁.frame = st.frame := by
    rw [PageTables.frame, PageTables.root, hins.cr3]
    rfl
  refine ⟨hgrows.trans h.grows, ?_, List.forall_mem_cons.mpr ⟨hf, h.pages⟩, ?_,
    List.forall_mem_cons.mpr ⟨?_, h.linked⟩, fun t' j hnotin => ?_⟩
  · have htail : st₁.supply = after := by rw [hins.supply, hsupply]; rfl
    rw [hsupply, ← htail, h.supply]
    rfl
  · have hone : st₁.lacks (p ++ i :: q) + 1 = st.lacks (p ++ i :: q) := by
      rw [PageTables.lacks, hframe]
      exact hins.links.missing_eq ht.distinct
    rw [List.length_cons, ← hone, ← h.count]
    omega
  · -- The new table was blank, and the tables that follow changed at most its word on the path.
    refine ⟨p, i, q, rfl, h.grows.tables _ _ hpath hnew, fun j => ?_⟩
    rcases h.words f j hfresh with hsame | ⟨r, s, f', hsplit, hr, hword, hnext⟩
    · exact .inl (hsame.trans (hzero j))
    · obtain rfl := hgrows.shaped.distinct r (p ++ [i]) f (hshort hsplit) hpath hr hnew
      refine .inr ⟨f', s, ?_, hword, hnext⟩
      rw [← List.append_cancel_left_eq (p ++ [i]), ← hsplit]
      simp
  · rw [List.mem_cons, not_or] at hnotin
    obtain ⟨hne, hnotin⟩ := hnotin
    rcases h.words t' j hnotin with hsame | ⟨r, s, f', hsplit, hr, hword, hnext⟩
    · by_cases hlink : t' = t ∧ j = i
      · obtain ⟨rfl, rfl⟩ := hlink
        exact .inr ⟨p, q, f, rfl, hins.links.at_path, hsame.trans hins.word,
          h.grows.tables _ _ hpath hnew⟩
      · left
        exact hsame.trans (hins.links.same t' j (not_and_or.mp hlink) hne)
    · refine .inr ⟨r, s, f', hsplit, ?_, hword, hnext⟩
      rw [PageTables.tableAt, hframe] at hr
      rcases hins.links.table_eq ht.distinct (hshort hsplit) with ⟨-, he⟩ | ⟨-, he⟩
      · exact absurd (Option.some.inj (hr.symm.trans he)) hne
      · exact he.symm.trans hr

/-- What laying tables along a path comes to. -/
inductive LaidResult (st' : PageTables) (path : List (Fin 512)) (rest : List ℕ) :
    PageTables × Except ℤ ℕ → Prop
  | all (t : ℕ) : st'.tableAt path = some t → st'.supply = rest →
      LaidResult st' path rest (st', .ok (t * pageSize))
  | outOfMemory : st'.tableAt path = none → rest.headD 0 = 0 → st'.supply = rest.tail →
      LaidResult st' path rest (st', .error (-enomem))

theorem ensureTables_laid (ht : TreeTables st) (hs : FreshSupply st) (hp : st.tableAt p = some t)
    (hlen : (p ++ q).length ≤ 3) : ∃ st' frames rest, Laid st st' (p ++ q) frames rest ∧
      LaidResult st' (p ++ q) rest (ensureTables st (t * pageSize) q) := by
  induction q generalizing st p t with
  | nil =>
    refine ⟨st, [], st.supply, .refl ht hs, .all t ?_ rfl⟩
    rw [List.append_nil]
    exact hp
  | cons i q ih =>
    have hd : p.length < 3 := by
      simp only [List.length_append, List.length_cons] at hlen
      omega
    have happend : p ++ i :: q = (p ++ [i]) ++ q := by simp
    rw [ensureTables]
    rcases ensureNextTable_cases (i := i) hs hp hd with
      ⟨t', hnext, he⟩ | ⟨habsent, hpage, he⟩ | ⟨st₁, f, after, hsupply, hpage, hins, hzero, he⟩
    · have hp' : st.tableAt (p ++ [i]) = some t' := by
        rw [PageTables.tableAt, table_concat, show table _ _ _ p = some t from hp]
        exact hnext
      rw [he, happend]
      exact ih ht hs hp' (happend ▸ hlen)
    · refine ⟨st.takePage.1, [], st.supply, .takePage ht hs, ?_⟩
      rw [he]
      refine .outOfMemory ?_ hpage rfl
      have hnone : table entryFrame (frameWord st.mem) st.frame (p ++ i :: q) = none := by
        rw [table_append, show table _ _ _ p = some t from hp, Option.bind_some, table, habsent]
        rfl
      exact hnone
    · obtain ⟨hgrows, hnew⟩ := hins.grows ht hs hsupply hpage
      obtain ⟨st', frames, rest, hlaid, hresult⟩ :=
        ih hgrows.shaped hgrows.fresh hnew (happend ▸ hlen)
      rw [← happend] at hlaid hresult
      refine ⟨st', f :: frames, rest, .cons hins hzero ht hs hsupply hpage hlen hlaid, ?_⟩
      rw [he]
      exact hresult

/-- The number of pages before `alloc_page` returns 0. -/
def pagesAhead (supply : List ℕ) : ℕ := (supply.takeWhile (· ≠ 0)).length

theorem Laid.pagesAhead_eq (h : Laid st st' path frames rest) :
    pagesAhead st.supply = frames.length + pagesAhead rest := by
  have hpages : ∀ page ∈ frames.map (· * pageSize), decide (page ≠ 0) = true := by
    intro page hpage
    obtain ⟨f, hf, rfl⟩ := List.mem_map.mp hpage
    exact decide_eq_true (h.pages f hf)
  rw [pagesAhead, h.supply, List.takeWhile_append_of_pos hpages, List.length_append,
    List.length_map]
  rfl

theorem pagesAhead_of_ne {supply : List ℕ} (h : 0 ∉ supply) : pagesAhead supply = supply.length := by
  have hall : ∀ page ∈ supply, decide (page ≠ 0) = true := by
    intro page hp
    apply decide_eq_true
    rintro rfl
    exact h hp
  induction supply with
  | nil => rfl
  | cons page rest ih =>
    obtain ⟨hpage, hrest⟩ := List.forall_mem_cons.mp hall
    rw [pagesAhead, List.takeWhile_cons, if_pos hpage, List.length_cons, List.length_cons]
    exact congrArg Nat.succ (ih (fun hmem => h (List.mem_cons_of_mem _ hmem)) hrest)

theorem pagesAhead_eq_zero (h : rest.headD 0 = 0) : pagesAhead rest = 0 := by
  cases rest with
  | nil => rfl
  | cons page rest =>
    obtain rfl : page = 0 := h
    rfl

end

/-! ### The calls -/

/-- The check at the start of `map_page`. -/
def Unaligned (virt phys : ℕ) : Prop :=
  virt &&& (pageSize - 1) ≠ 0 ∨ phys &&& (pageSize - 1) ≠ 0

instance (virt phys : ℕ) : Decidable (Unaligned virt phys) := inferInstanceAs (Decidable (_ ∨ _))

/-- What `map_page` comes to. -/
inductive MapResult (st : PageTables) (virt phys flags : ℕ) : PageTables × ℤ → Prop
  | unaligned : Unaligned virt phys → MapResult st virt phys flags (st, -einval)
  | present : ¬ Unaligned virt phys → (st.leafOf virt).isSome = true →
      MapResult st virt phys flags (st, -eexist)
  | mapped (st' : PageTables) (frames : List ℕ) (t : ℕ) : ¬ Unaligned virt phys →
      st.leafOf virt = none → Laid st st' (tablePath virt) frames st'.supply →
      st'.tableAt (tablePath virt) = some t → MapResult st virt phys flags
        (st'.setWord (t * pageSize + 8 * tableIndex virt 12) (leafEntry phys flags), 0)
  | noMemory (st' : PageTables) (frames rest : List ℕ) : ¬ Unaligned virt phys →
      st.leafOf virt = none → Laid st st' (tablePath virt) frames rest →
      st'.tableAt (tablePath virt) = none → rest.headD 0 = 0 → st'.supply = rest.tail →
      MapResult st virt phys flags (st', -enomem)

section
variable {st st' : PageTables} {virt phys flags t w : ℕ} {frames rest : List ℕ}

/-- A present leaf has all its tables. -/
theorem createEntry_of_leaf {e : ℕ} (h : st.leafOf virt = some e) :
    ∃ a, createEntry st virt = (st, .ok a) ∧ isPresent (load st.mem a 8) = true := by
  cases htable : st.tableAt (tablePath virt) with
  | none =>
    rw [leafOf_eq_none htable] at h
    cases h
  | some t =>
    refine ⟨_, createEntry_of_table htable, ?_⟩
    by_contra habsent
    rw [leafOf_eq htable, if_neg habsent] at h
    cases h

theorem mapPage_of_leaf {e : ℕ} (haligned : ¬ Unaligned virt phys) (h : st.leafOf virt = some e) :
    mapPage st virt phys flags = (st, -eexist) := by
  obtain ⟨a, hcreate, hpres⟩ := createEntry_of_leaf h
  unfold mapPage
  split
  next hunaligned => exact absurd hunaligned haligned
  next => simp only [hcreate, hpres, if_true]

theorem mapPage_result (ht : TreeTables st) (hs : FreshSupply st) (virt phys flags : ℕ) :
    MapResult st virt phys flags (mapPage st virt phys flags) := by
  by_cases haligned : Unaligned virt phys
  · have he : mapPage st virt phys flags = (st, -einval) := if_pos haligned
    rw [he]
    exact .unaligned haligned
  cases hleaf : st.leafOf virt with
  | some e =>
    rw [mapPage_of_leaf haligned hleaf]
    exact .present haligned (by rw [hleaf]; rfl)
  | none =>
    have hroot : st.tableAt [] = some st.frame := rfl
    obtain ⟨st', frames, rest, hlaid, hresult⟩ :=
      ensureTables_laid (q := tablePath virt) ht hs hroot (by simp [tablePath])
    rw [List.nil_append, st.root_frame] at hresult
    rw [List.nil_append] at hlaid
    have hleaf' : st'.leafOf virt = none := (hlaid.grows.leaf _ _ rfl).trans hleaf
    unfold mapPage
    split
    next hunaligned => exact absurd hunaligned haligned
    next =>
    rw [createEntry_eq]
    generalize ensureTables st st.root (tablePath virt) = r at hresult
    cases hresult with
    | all t htable hsupply =>
      subst hsupply
      have habsent : ¬ isPresent (load st'.mem (t * pageSize + 8 * tableIndex virt 12) 8) = true := by
        intro hpres
        rw [leafOf_eq htable, if_pos hpres] at hleaf'
        cases hleaf'
      simp only [withTable, if_neg habsent]
      exact .mapped st' frames t haligned hleaf hlaid htable
    | outOfMemory hnone hzero hsupply =>
      exact .noMemory st' frames rest haligned hleaf hlaid hnone hzero hsupply

/-- The translation of all addresses follows the leaf entries. -/
theorem Grows.virtToPhys_eq (h : Grows st st') (u : ℕ) (out : Bool) :
    virtToPhys st' u out = virtToPhys st u out := by
  cases out with
  | false => rw [virtToPhys, virtToPhys, if_pos rfl, if_pos rfl]
  | true =>
    have hleaf : st'.leafOf u = st.leafOf u := h.leaf _ _ rfl
    rw [Mm.virtToPhys_eq, Mm.virtToPhys_eq, hleaf]

/-- Writing a leaf entry leaves the tables in place. -/
theorem setLeaf_tableAt (ht : TreeTables st) (hpath : st.tableAt (tablePath virt) = some t)
    {p : List (Fin 512)} (hp : p.length ≤ 3) :
    (st.setWord (t * pageSize + 8 * tableIndex virt 12) w).tableAt p = st.tableAt p :=
  (ht.distinct.set_leaf hpath rfl fun _ _ hne =>
    frameWord_store_of_ne (i := indexAt virt 12) hne).1 p hp

/-- The answers of `alloc_page` that were used up without effect. -/
theorem Laid.taken (h : Laid st st' (tablePath virt) frames rest) (hzero : rest.headD 0 = 0)
    (hsupply : st'.supply = rest.tail) : ∃ taken, st.supply = taken ++ st'.supply ∧
      (∀ page ∈ taken, page ≠ 0 → ∃ f, page = f * pageSize ∧ st'.OnPath (tablePath virt) f) ∧
      st'.lacks (tablePath virt) + (taken.filter (· ≠ 0)).length = st.lacks (tablePath virt) := by
  have hpages : (frames.map (· * pageSize)).filter (· ≠ 0) = frames.map (· * pageSize) := by
    refine List.filter_eq_self.mpr fun page hpage => ?_
    obtain ⟨f, hf, rfl⟩ := List.mem_map.mp hpage
    exact decide_eq_true (h.pages f hf)
  have hrest : ∀ page ∈ rest.take 1, page = 0 := by
    cases rest with
    | nil => simp
    | cons page rest =>
      obtain rfl : page = 0 := hzero
      simp
  refine ⟨frames.map (· * pageSize) ++ rest.take 1, ?_, fun page hpage hne => ?_, ?_⟩
  · rw [h.supply, hsupply, List.append_assoc, ← List.drop_one, List.take_append_drop]
  · rcases List.mem_append.mp hpage with hmem | hmem
    · obtain ⟨f, hf, rfl⟩ := List.mem_map.mp hmem
      exact ⟨f, rfl, h.linked f hf⟩
    · exact absurd (hrest page hmem) hne
  · have hnone : (rest.take 1).filter (· ≠ 0) = [] :=
      List.filter_eq_nil_iff.mpr fun page hpage => by simp [hrest page hpage]
    rw [List.filter_append, hpages, hnone, List.append_nil, List.length_map]
    exact h.count

theorem mapPage_tables (ht : TreeTables st) (hs : FreshSupply st) {p : List (Fin 512)}
    (hp : p.length ≤ 3) (h : st.tableAt p = some t) :
    (mapPage st virt phys flags).1.tableAt p = some t := by
  have hresult := mapPage_result ht hs virt phys flags
  generalize mapPage st virt phys flags = r at hresult
  cases hresult with
  | unaligned _ => exact h
  | present _ _ => exact h
  | mapped st' frames t' _ _ hlaid htable =>
    exact (setLeaf_tableAt hlaid.grows.shaped htable hp).trans (hlaid.grows.tables p t hp h)
  | noMemory st' frames rest _ _ hlaid _ _ _ => exact hlaid.grows.tables p t hp h

/-- Where nothing is mapped yet, the call succeeds if there are pages for the tables that are
missing, and takes no more than these. -/
theorem mapPage_needs (ht : TreeTables st) (hs : FreshSupply st) (haligned : ¬ Unaligned virt phys)
    (hleaf : st.leafOf virt = none) :
    ((mapPage st virt phys flags).2 = 0 ↔ st.lacks (tablePath virt) ≤ pagesAhead st.supply) ∧
      ((mapPage st virt phys flags).2 = 0 →
        (mapPage st virt phys flags).1.supply = st.supply.drop (st.lacks (tablePath virt))) := by
  have hresult := mapPage_result ht hs virt phys flags
  generalize mapPage st virt phys flags = r at hresult
  cases hresult with
  | unaligned hunaligned => exact absurd hunaligned haligned
  | present _ hsome =>
    rw [hleaf] at hsome
    cases hsome
  | mapped st' frames t _ _ hlaid htable =>
    have hahead := hlaid.pagesAhead_eq
    have hcount := hlaid.count
    have hall : st'.lacks (tablePath virt) = 0 := missing_eq_zero_iff.mpr (by
      rw [show table _ _ _ (tablePath virt) = some t from htable]; rfl)
    rw [hall, Nat.zero_add] at hcount
    refine ⟨iff_of_true rfl (by omega), fun _ => ?_⟩
    rw [hlaid.supply, ← hcount, List.drop_left' (List.length_map _)]
    rfl
  | noMemory st' frames rest _ _ hlaid hnone hzero _ =>
    have hahead := hlaid.pagesAhead_eq
    have hcount := hlaid.count
    rw [pagesAhead_eq_zero hzero] at hahead
    have hmore : st'.lacks (tablePath virt) ≠ 0 := by
      intro hall
      have hsome := missing_eq_zero_iff.mp hall
      rw [show table _ _ _ (tablePath virt) = none from hnone] at hsome
      cases hsome
    refine ⟨iff_of_false (by simp [enomem]) (by omega), fun h => ?_⟩
    exact absurd h (by simp [enomem])

end

/-- A `map_page` that fails changes no translation, whatever the address, the physical page and
the flags are and wherever `alloc_page` starts to return 0. The pages that it took are tables on
the path of the address, blank but for the words that link them; and the same call made again
keeps them, and needs pages for the tables that are still missing only. -/
theorem map_page_failure_harmless {st : PageTables} (h : st.Reachable) {supply : List ℕ}
    (hs : FreshSupply (st.withSupply supply)) (virt phys flags : ℕ) :
    let r := mapPage (st.withSupply supply) virt phys flags
    r.2 ≠ 0 →
      (r.2 = -einval ∨ r.2 = -eexist ∨ r.2 = -enomem) ∧
      (∀ u out, virtToPhys r.1 u out = virtToPhys st u out) ∧
      (∃ taken, supply = taken ++ r.1.supply ∧
        (∀ page ∈ taken, page ≠ 0 → ∃ f, page = f * pageSize ∧ r.1.OnPath (tablePath virt) f) ∧
        r.1.lacks (tablePath virt) + (taken.filter (· ≠ 0)).length =
          st.lacks (tablePath virt)) ∧
      ∀ supply', FreshSupply (r.1.withSupply supply') →
        let r' := mapPage (r.1.withSupply supply') virt phys flags
        (∀ p t, p.length ≤ 3 → r.1.tableAt p = some t → r'.1.tableAt p = some t) ∧
        (r.2 ≠ -enomem → r'.2 = r.2 ∧ r'.1.supply = supply') ∧
        (r.2 = -enomem →
          (r'.2 = 0 ↔ r.1.lacks (tablePath virt) ≤ pagesAhead supply') ∧
          (r'.2 = 0 → r'.1.supply = supply'.drop (r.1.lacks (tablePath virt)))) := by
  have ht : TreeTables (st.withSupply supply) := h.tree.withSupply supply
  have hresult := mapPage_result ht hs virt phys flags
  simp only
  generalize mapPage (st.withSupply supply) virt phys flags = r at hresult
  intro hfailed
  cases hresult with
  | unaligned hunaligned =>
    refine ⟨.inl rfl, fun _ _ => rfl, ⟨[], rfl, by simp, rfl⟩, fun supply' hs' => ?_⟩
    have hagain : mapPage ((st.withSupply supply).withSupply supply') virt phys flags =
        ((st.withSupply supply).withSupply supply', -einval) := if_pos hunaligned
    exact ⟨fun p t hp htable => mapPage_tables (ht.withSupply supply') hs' hp htable,
      fun _ => by rw [hagain]; exact ⟨rfl, rfl⟩, by simp [einval, enomem]⟩
  | present haligned hsome =>
    obtain ⟨e, hleaf⟩ := Option.isSome_iff_exists.mp hsome
    refine ⟨.inr (.inl rfl), fun _ _ => rfl, ⟨[], rfl, by simp, rfl⟩, fun supply' hs' => ?_⟩
    have hagain : mapPage ((st.withSupply supply).withSupply supply') virt phys flags =
        ((st.withSupply supply).withSupply supply', -eexist) := mapPage_of_leaf haligned hleaf
    exact ⟨fun p t hp htable => mapPage_tables (ht.withSupply supply') hs' hp htable,
      fun _ => by rw [hagain]; exact ⟨rfl, rfl⟩, by simp [eexist, enomem]⟩
  | mapped st' frames t _ _ _ _ => exact absurd rfl hfailed
  | noMemory st' frames rest haligned hleaf hlaid hnone hzero hsupply =>
    have hleaf' : st'.leafOf virt = none := leafOf_eq_none hnone
    refine ⟨.inr (.inr rfl), hlaid.grows.virtToPhys_eq, hlaid.taken hzero hsupply,
      fun supply' hs' => ⟨fun p t hp htable => ?_, fun hne => absurd rfl hne, fun _ => ?_⟩⟩
    · exact mapPage_tables (hlaid.grows.shaped.withSupply supply') hs' hp htable
    · exact mapPage_needs (hlaid.grows.shaped.withSupply supply') hs' haligned hleaf'

theorem map_page_failure_harmless_one_page :
    (mapPage (emptyTables.withSupply [0x2000]) 0x400000 0x8000 pageWritable).2 ≠ 0 ∧
    ∀ u out, virtToPhys (mapPage (emptyTables.withSupply [0x2000]) 0x400000 0x8000
      pageWritable).1 u out = virtToPhys emptyTables u out := by
  have hfresh : FreshSupply (emptyTables.withSupply [0x2000]) :=
    emptyTables_fresh (by decide) (by decide)
  have hblank (t : ℕ) (j : Fin 512) : entryFrame (frameWord emptyTables.mem t j) = none := by
    rw [emptyTables_word]
    rfl
  -- Three tables are missing, and there is one page.
  have hlacks : (emptyTables.withSupply [0x2000]).lacks (tablePath 0x400000) = 3 :=
    missing_of_blank (hblank _)
  have htable : emptyTables.tableAt (tablePath 0x400000) = none := by
    cases hpath : emptyTables.tableAt (tablePath 0x400000) with
    | none => rfl
    | some t => exact absurd (emptyTables_path hpath).1 (by simp [tablePath])
  have hneeds : (mapPage (emptyTables.withSupply [0x2000]) 0x400000 0x8000 pageWritable).2 = 0 ↔
      (emptyTables.withSupply [0x2000]).lacks (tablePath 0x400000) ≤ pagesAhead [0x2000] :=
    (mapPage_needs (emptyTables_tree.withSupply [0x2000]) hfresh (by decide)
      (leafOf_eq_none htable)).1
  have hfailed : (mapPage (emptyTables.withSupply [0x2000]) 0x400000 0x8000 pageWritable).2 ≠ 0 := by
    rw [Ne, hneeds, hlacks]
    decide
  exact ⟨hfailed, (map_page_failure_harmless (.start emptyTables_tree) hfresh 0x400000 0x8000
    pageWritable hfailed).2.1⟩

end Tianole.Mm
