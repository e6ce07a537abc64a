import Tianole.Mm.HeapSafety

/-! `kmalloc` for any size of 64 bits: which of its unsigned additions may overflow without harm. -/
namespace Tianole.Mm
open Memory Word Tiling Runs

/-- The address lies in the heap, on a mapped page. -/
def InHeap (h : Heap) (x : ℕ) : Prop :=
  heapBase ≤ x ∧ x < h.heapEnd ∧ h.mapped (x / pageSize * pageSize) = true

/-- What `kmalloc(n)` owes when it returns `p`: the `n` bytes from `p` on, without wrap-around, are
memory of the heap in a used block that begins there, or `p` is null; and every field that it wrote
lies in the heap. -/
structure Delivers (h' : Heap) (n p : ℕ) : Prop where
  block : p ≠ 0 → ∃ l b, Shows h' l ∧ b ∈ l ∧ b.free = false ∧ p = b.addr + headerSize ∧ n ≤ b.size
  range : p ≠ 0 → p + n ≤ 2 ^ 64
  memory : p ≠ 0 → ∀ x, p ≤ x → x < p + n → InHeap h' x
  writes : ∀ w ∈ h'.written, ∀ x, w.1 ≤ x → x < w.1 + w.2 → InHeap h' x

/-- The page layer fails for this page. -/
def PageOutcome.Fails (o : PageOutcome) : Prop := o.page = 0 ∨ o.mapResult ≠ 0

/-- If the heap must be extended, the end of the extension does not overflow to where no page is
mapped; and the size is not rounded up beyond 64 bits, unless nothing comes of it. -/
def Answerable (h : Heap) (pages : ℕ → PageOutcome) (n : ℕ) : Prop :=
  (findFreeBlock h (alignUpSize n heapAlignment) = .ok 0 →
    Extends h (alignUpSize n heapAlignment)) ∧
  (n + heapAlignment - 1 < 2 ^ 64 ∨ findFreeBlock h (alignUpSize n heapAlignment) = .ok 0 ∧
    (pages h.heapEnd).Fails)

section
variable {h h' h₁ : Heap} {l l' : List Block} {n p size : ℕ} {pages : ℕ → PageOutcome}

/-! ### Requests that are answered well -/

theorem Sized.answerable (hn : Sized h n) (pages : ℕ → PageOutcome) : Answerable h pages n :=
  ⟨hn.2, .inl hn.1⟩

theorem Served.delivers (hs : Served h l n h' l' p) (hlog : h.written = []) : Delivers h' n p := by
  have hg := hs.good
  have hheap (x : ℕ) (hx : heapBase ≤ x) (hlt : x < h'.heapEnd) : InHeap h' x :=
    ⟨hx, hlt, hg.mapped x hx hlt⟩
  have hbound := hg.shows.bound
  refine ⟨fun hp => ?_, fun hp => ?_, fun hp x hx hlt => ?_, fun w hw x hx hlt => ?_⟩
  · obtain ⟨b, hb, hused, hpb, hroom, -⟩ := hs.fresh hp
    exact ⟨l', b, hg.shows, hb, hused, hpb, hroom⟩
  · obtain ⟨b, hb, -, hpb, hroom, -⟩ := hs.fresh hp
    have hstop := hg.shows.stop_lt hb
    simp only [Block.stop] at hstop
    omega
  · obtain ⟨b, hb, -, hpb, hroom, -⟩ := hs.fresh hp
    have hbounds := hg.shows.tiles.bounds hb
    simp only [Block.stop] at hbounds
    exact hheap x (by omega) (by omega)
  · obtain ⟨new, hnew, hin⟩ := hs.writes
    rw [hlog, List.append_nil] at hnew
    obtain ⟨hlow, hhigh⟩ := hin w (hnew ▸ hw)
    exact hheap x (by omega) (by omega)

/-- An extension whose first page is not mapped changes nothing. -/
theorem heapExtend_fails (hx : Extends h size) (hfail : (pages h.heapEnd).Fails) :
    ∃ ret, ret ≠ 0 ∧ heapExtend h pages size = .ok (h, ret) := by
  obtain ⟨fuel, hfuel⟩ := Nat.exists_eq_succ_of_ne_zero hx.pos
  have hmap : ∃ ret, ret ≠ 0 ∧
      mapHeapRange h pages h.heapEnd (extensionBytes size) = .ok (h, ret) := by
    unfold mapHeapRange
    rw [hfuel, mapLoop, if_pos (hfuel ▸ hx)]
    by_cases hpage : (pages h.heapEnd).page = 0
    · exact ⟨-enomem, by decide, if_pos hpage⟩
    · have hret := hfail.resolve_left hpage
      exact ⟨_, hret, (if_neg hpage).trans (if_pos hret)⟩
  obtain ⟨ret, hret, hmap⟩ := hmap
  exact ⟨ret, hret, heapExtend_of_failed hmap hret⟩

theorem kmalloc_answered (hg : Good h l) (hn : n = 0 ∨ Answerable h pages n) :
    ∃ h' p l', kmalloc h pages n = .ok (h', p) ∧ Served h l n h' l' p := by
  by_cases hzero : n = 0
  · exact kmalloc_served pages hg (.inl hzero)
  · obtain ⟨hx, hsmall | ⟨hnone, hfail⟩⟩ := hn.resolve_left hzero
    · exact kmalloc_served pages hg (.inr ⟨hsmall, hx⟩)
    · obtain ⟨ret, hret, hext⟩ := heapExtend_fails (hx hnone) hfail
      exact ⟨h, 0, l, kmalloc_of_failed hzero hnone hext hret,
        (Grown.refl h.heapEnd h).served hg n⟩

/-! ### An extension without pages -/

/-- The end of the heap stays, and the record of writes only grows. -/
structure Records (h h' : Heap) : Prop where
  heapEnd : h'.heapEnd = h.heapEnd
  written : h.written <:+ h'.written

theorem Records.refl (h : Heap) : Records h h := ⟨rfl, List.suffix_rfl⟩

section
variable {a width v : ℕ}

theorem Records.write (hr : Records h h₁) : Records h (h₁.write a width v) :=
  ⟨hr.heapEnd, hr.written.trans (List.suffix_cons _ _)⟩

theorem Records.setLast (hr : Records h h₁) : Records h (h₁.setLast a) := ⟨hr.heapEnd, hr.written⟩

theorem Records.setFirst (hr : Records h h₁) : Records h (h₁.setFirst a) := ⟨hr.heapEnd, hr.written⟩

theorem Records.ite {c : Prop} [Decidable c] {h₂ : Heap} (hr : Records h h₁) (hr' : Records h h₂) :
    Records h (if c then h₁ else h₂) := by
  split
  · exact hr
  · exact hr'

theorem Records.blockInsertAfter {next : ℕ} (hr : Records h h₁) :
    Records h (blockInsertAfter h₁ a next) :=
  .write (.ite (.write (.write (.write hr))) (.setLast (.write (.write hr))))

theorem Records.blockSplit (hr : Records h h₁) : Records h (blockSplit h₁ a size) :=
  .ite hr (.blockInsertAfter (.write (.write (.write hr))))

theorem Records.takeBlock (hr : Records h h₁) : Records h (takeBlock h₁ a size).1 := by
  unfold Mm.takeBlock
  split
  · exact hr
  · exact .write (.blockSplit hr)

theorem Records.blockMergeNext (hr : Records h h₁) : Records h (blockMergeNext h₁ a) := by
  unfold Mm.blockMergeNext
  dsimp only
  split
  · exact hr
  · exact .ite (.write (.write (.write hr))) (.setLast (.write (.write hr)))

theorem Records.mergePrev (hr : Records h h₁) : Records h (mergePrev h₁ a) :=
  .ite (.blockMergeNext hr) hr

end

/-- The header of a block that is linked has been written, wherever it lies. -/
theorem linkBlock_wrote (h : Heap) (block bytes : ℕ) :
    (block, 8) ∈ (linkBlock h block bytes).written ∧
      (linkBlock h block bytes).heapEnd = wrap64 (h.heapEnd + bytes) := by
  have hopen : (block, 8) ∈ (h.openBlock block bytes).written := by
    simp [Heap.openBlock, Heap.setSize, Heap.setFree, Heap.setPrev, Heap.setNext, Heap.write]
  have hrest : Records (h.openBlock block bytes) (linkBlock h block bytes) := by
    rw [linkBlock_eq]
    exact .setLast (.ite (.write (.refl _)) (.setFirst (.refl _)))
  exact ⟨hrest.written.subset hopen, hrest.heapEnd⟩

theorem mapLoop_of_le {last fuel current : ℕ} (pages : ℕ → PageOutcome) (hle : last ≤ current) :
    mapLoop pages last fuel h current = .ok (h, 0) := by
  cases fuel with
  | zero => exact if_neg (Nat.not_lt.mpr hle)
  | succ fuel => exact if_neg (Nat.not_lt.mpr hle)

/-- When no page is mapped, the new header is written behind the heap. -/
theorem heapExtend_overflows (pages : ℕ → PageOutcome) (hx : ¬ Extends h size) :
    ∃ h₁, heapExtend h pages size = .ok (h₁, 0) ∧ (h.heapEnd, 8) ∈ h₁.written ∧
      h₁.heapEnd ≤ h.heapEnd := by
  have hle : wrap64 (h.heapEnd + extensionBytes size) ≤ h.heapEnd := Nat.not_lt.mp hx
  have hmap : mapHeapRange h pages h.heapEnd (extensionBytes size) = .ok (h, 0) :=
    mapLoop_of_le pages hle
  obtain ⟨hwrote, hend⟩ := linkBlock_wrote h h.heapEnd (extensionBytes size)
  have hrec := (Records.refl (linkBlock h h.heapEnd (extensionBytes size))).mergePrev (a := h.heapEnd)
  refine ⟨_, heapExtend_of_mapped hmap, hrec.written.subset hwrote, ?_⟩
  rw [hrec.heapEnd, hend]
  exact hle

theorem not_delivers_of_overflow (hn : n ≠ 0)
    (hfind : findFreeBlock h (alignUpSize n heapAlignment) = .ok 0)
    (hx : ¬ Extends h (alignUpSize n heapAlignment)) (hm : kmalloc h pages n = .ok (h', p)) :
    ¬ Delivers h' n p := by
  obtain ⟨h₁, hext, hwrote, hend⟩ := heapExtend_overflows pages hx
  rw [kmalloc_of_extended hn hfind hext] at hm
  obtain ⟨block, -, htake⟩ := map_ok hm
  have hrec := @Records.takeBlock h₁ h₁ (alignUpSize n heapAlignment) block (.refl h₁)
  rw [htake] at hrec
  intro hd
  obtain ⟨-, hlt, -⟩ := hd.writes _ (hrec.written.subset hwrote) h.heapEnd le_rfl (by simp)
  rw [hrec.heapEnd] at hlt
  omega

/-! ### Sizes that are rounded to zero -/

theorem alignUpSize_overflow (hn : 2 ^ 64 ≤ n + heapAlignment - 1) (hlt : n < 2 ^ 64) :
    alignUpSize n heapAlignment = 0 := by
  have halign : heapAlignment = 2 ^ 4 := rfl
  rw [halign] at hn ⊢
  have hwrap : wrap64 (n + 2 ^ 4 - 1) = n + 2 ^ 4 - 1 - 2 ^ 64 := by
    rw [wrap64, Nat.mod_eq_sub_mod hn, Nat.mod_eq_of_lt (by omega)]
  rw [alignUpSize, alignUp, hwrap, alignDown_eq (by decide) (by omega)]
  omega

theorem mapLoop_onePage {last n current : ℕ} (hlt : current < last)
    (hok : ¬ (pages current).Fails) (hnext : last ≤ wrap64 (current + pageSize)) :
    mapLoop pages last (n + 1) h current =
      .ok (h.mapPage current (pages current).contents, 0) := by
  obtain ⟨hpage, hret⟩ : (pages current).page ≠ 0 ∧ ¬ (pages current).mapResult ≠ 0 :=
    not_or.mp hok
  rw [mapLoop, if_pos hlt]
  exact (if_neg hpage).trans ((if_neg hret).trans (mapLoop_of_le pages hnext))

/-- An extension by one page, which the page layer gives. -/
theorem heapExtend_onePage (hbytes : extensionBytes size = pageSize) (hx : Extends h size)
    (hok : ¬ (pages h.heapEnd).Fails) : ∃ h₁, heapExtend h pages size = .ok (h₁, 0) := by
  have hlt : h.heapEnd < wrap64 (h.heapEnd + pageSize) := hbytes ▸ hx
  have hmap : mapHeapRange h pages h.heapEnd (extensionBytes size) =
      .ok (h.mapPage h.heapEnd (pages h.heapEnd).contents, 0) := by
    rw [hbytes]
    exact mapLoop_onePage (n := 4095) hlt hok le_rfl
  exact ⟨_, heapExtend_of_mapped hmap⟩

/-- A search for nothing finds any free block. -/
theorem findFreeBlock_zero (hs : Shows h l) {b : Block} (hb : b ∈ l) (hfree : b.free = true) :
    ∃ c ∈ l, findFreeBlock h 0 = .ok c.addr := by
  have hsome : (l.find? fun b => b.fits 0).isSome = true :=
    List.find?_isSome.mpr ⟨b, hb, by simp [Block.fits, hfree]⟩
  obtain ⟨c, hc⟩ := Option.isSome_iff_exists.mp hsome
  refine ⟨c, List.mem_of_find?_eq_some hc, ?_⟩
  rw [findFreeBlock_eq 0 hs, hc]
  rfl

/-- Such a request takes a block of the heap, unless there is none and no page for one. -/
theorem kmalloc_of_zero (hg : Good h l) (hn : n ≠ 0) (hsize : alignUpSize n heapAlignment = 0)
    (hx : findFreeBlock h 0 = .ok 0 → Extends h 0 ∧ ¬ (pages h.heapEnd).Fails)
    (hm : kmalloc h pages n = .ok (h', p)) : heapBase ≤ p := by
  have hpointer {h₁ : Heap} {l₁ : List Block} (hs : Shows h₁ l₁) {c : Block} (hc : c ∈ l₁) :
      heapBase ≤ (takeBlock h₁ c.addr 0).2 := by
    have hlow := (hs.tiles.bounds hc).1
    rw [takeBlock, if_neg (hs.addr_pos hc).ne']
    exact hlow.trans (Nat.le_add_right _ _)
  by_cases hfind : findFreeBlock h 0 = .ok 0
  · obtain ⟨hext, hok⟩ := hx hfind
    obtain ⟨h₁, hext₁⟩ := heapExtend_onePage (by decide) hext hok
    obtain ⟨h₂, ret, hext₂, hres⟩ := heapExtend_extended pages hg hext
    obtain ⟨rfl, rfl⟩ := Prod.mk.inj (Except.ok.inj (hext₂.symm.trans hext₁))
    cases hres with
    | failed hret => exact absurd rfl hret
    | linked l₁ hg₁ _ _ _ hroom =>
      obtain ⟨b, hb, hfree, -⟩ := hroom
      obtain ⟨c, hc, hfind₁⟩ := findFreeBlock_zero hg₁.shows hb hfree
      rw [kmalloc_of_extended hn (hsize ▸ hfind) (hsize ▸ hext₁), hsize, hfind₁] at hm
      have hp : (takeBlock h₂ c.addr 0).2 = p := congrArg Prod.snd (Except.ok.inj hm)
      exact hp ▸ hpointer hg₁.shows hc
  · have hsearch := findFreeBlock_eq 0 hg.shows
    cases hsome : l.find? fun b => b.fits 0 with
    | none =>
      rw [hsome] at hsearch
      exact absurd hsearch hfind
    | some c =>
      rw [hsome] at hsearch
      have hc := List.mem_of_find?_eq_some hsome
      rw [kmalloc_of_found pages hn (hsize.symm ▸ hsearch) (hg.shows.addr_pos hc).ne', hsize] at hm
      have hp : (takeBlock h c.addr 0).2 = p := congrArg Prod.snd (Except.ok.inj hm)
      exact hp ▸ hpointer hg.shows hc

theorem not_delivers_of_zero (hn : 2 ^ 64 ≤ n + heapAlignment - 1) (hp : heapBase ≤ p) :
    ¬ Delivers h' n p := by
  intro hd
  have hbase : heapAlignment < heapBase := by decide
  have hrange := hd.range (by omega)
  omega

theorem delivers_iff_answerable (hg : Good h l) (hlog : h.written = []) (hn : 0 < n)
    (hlt : n < 2 ^ 64) :
    (∃ h' p, kmalloc h pages n = .ok (h', p) ∧ Delivers h' n p) ↔ Answerable h pages n := by
  constructor
  · rintro ⟨h', p, hm, hd⟩
    have hx : findFreeBlock h (alignUpSize n heapAlignment) = .ok 0 →
        Extends h (alignUpSize n heapAlignment) := by
      intro hfind
      by_contra hx
      exact not_delivers_of_overflow hn.ne' hfind hx hm hd
    refine ⟨hx, ?_⟩
    by_contra hnot
    obtain ⟨hbig, hok⟩ := not_or.mp hnot
    have hover : 2 ^ 64 ≤ n + heapAlignment - 1 := Nat.not_lt.mp hbig
    have hsize := alignUpSize_overflow hover hlt
    rw [hsize] at hx hok
    refine not_delivers_of_zero hover (kmalloc_of_zero hg hn.ne' hsize ?_ hm) hd
    exact fun hfind => ⟨hx hfind, fun hfail => hok ⟨hfind, hfail⟩⟩
  · intro ha
    obtain ⟨h', p, l', hm, hs⟩ := kmalloc_answered hg (.inr ha)
    exact ⟨h', p, hm, hs.delivers hlog⟩

end

/-! ### Runs -/

namespace HeapSystem

/-- The steps of callers who ask for sizes that are answered well. -/
def Careful (σ : HeapSystem) : HeapAction → Prop
  | .malloc n pages => n = 0 ∨ n < 2 ^ 64 ∧ Answerable σ.heap pages n
  | .free p => σ.Admissible (.free p)
  | .store a v => σ.Admissible (.store a v)

/-- The states after `heap_init` and any such steps. -/
def CarefullyReachable : HeapSystem → Prop :=
  Reach step (fun σ => (∃ mem pages, heapInit (bootHeap mem) pages = .ok σ.heap) ∧ σ.live = [])
    Careful

section
variable {σ σ' : HeapSystem} {h : Heap} {l : List Block} {n : ℕ} {pages : ℕ → PageOutcome}
  {act : HeapAction}

theorem clearLog_answerable (hg : Good h l) :
    Answerable h.clearLog pages n ↔ Answerable h pages n := by
  unfold Answerable
  rw [clearLog_find hg]
  rfl

theorem step_careful (hg : Good σ.heap l) (ho : Owns l σ.live) (ha : σ.Careful act)
    (hs : σ.step act = .ok σ') : ∃ l', Good σ'.heap l' ∧ Owns l' σ'.live := by
  cases act with
  | malloc n pages =>
    have hn : n = 0 ∨ Answerable σ.heap.clearLog pages n :=
      ha.imp_right fun h => (clearLog_answerable hg).mpr h.2
    obtain ⟨h', p, l', hok, hserved⟩ := kmalloc_answered (clearLog_good hg) hn
    simp only [step, hok, Except.map] at hs
    obtain rfl := Except.ok.inj hs
    exact ⟨l', hserved.good, ho.grant (fun c hc hu => (hserved.kept c hc hu).1) hserved.fresh⟩
  | free p =>
    have hadm : σ.Admissible (.free p) := ha
    exact step_keeps hg ho hadm hs
  | store a v =>
    have hadm : σ.Admissible (.store a v) := ha
    exact step_keeps hg ho hadm hs

theorem CarefullyReachable.good (h : σ.CarefullyReachable) :
    ∃ l, Good σ.heap l ∧ Owns l σ.live :=
  good_of_reach step_careful h

end

end HeapSystem

/-- In every state of every run whose requests all meet the condition, and whatever the page layer
does, `kmalloc` delivers for a size of 64 bits exactly if it meets the condition too. -/
theorem kmalloc_any_size_iff {σ : HeapSystem} (h : σ.CarefullyReachable)
    (pages : ℕ → PageOutcome) {n : ℕ} (hn : 0 < n) (hlt : n < 2 ^ 64) :
    (∃ h' p, kmalloc σ.heap.clearLog pages n = .ok (h', p) ∧ Delivers h' n p) ↔
      Answerable σ.heap pages n := by
  obtain ⟨l, hg, -⟩ := h.good
  rw [← HeapSystem.clearLog_answerable hg]
  exact delivers_iff_answerable (HeapSystem.clearLog_good hg) rfl hn hlt

/-- A page layer that always has a page of zeros. -/
def zeroPages (_ : ℕ) : PageOutcome := ⟨pageSize, 0, fun _ => 0⟩

theorem heapInit_zeroPages : ∃ h, heapInit (bootHeap fun _ => 0) (fun _ => zeroPages) = .ok h ∧
    findFreeBlock h 32 = .ok heapBase ∧
      (kmalloc h.clearLog zeroPages (2 ^ 64 - 1)).map Prod.snd = .ok (heapBase + headerSize) := by
  have hrun : (heapInit (bootHeap fun _ => 0) fun _ => zeroPages).map (fun h =>
      (findFreeBlock h 32, (kmalloc h.clearLog zeroPages (2 ^ 64 - 1)).map Prod.snd)) =
        .ok (.ok heapBase, .ok (heapBase + headerSize)) := by decide +kernel
  obtain ⟨h, hh, hr⟩ := map_ok hrun
  exact ⟨h, hh, congrArg Prod.fst hr, congrArg Prod.snd hr⟩

theorem kmalloc_any_size_iff_24 : ∃ σ : HeapSystem, σ.CarefullyReachable ∧
    ∃ h' p, kmalloc σ.heap.clearLog zeroPages 24 = .ok (h', p) ∧ Delivers h' 24 p := by
  obtain ⟨h, hh, hfind, -⟩ := heapInit_zeroPages
  have hσ : (HeapSystem.mk h []).CarefullyReachable := .start ⟨⟨_, _, hh⟩, rfl⟩
  refine ⟨_, hσ, (kmalloc_any_size_iff hσ zeroPages (by decide) (by decide)).mpr ?_⟩
  refine ⟨fun hnone => ?_, .inl (by decide)⟩
  have hsize : alignUpSize 24 heapAlignment = 32 := by decide
  rw [hsize, hfind] at hnone
  cases hnone

/-- The largest size is rounded to 0, so that `kmalloc` returns a pointer to no bytes at all. -/
theorem kmalloc_largest_size : ∃ σ : HeapSystem, σ.CarefullyReachable ∧
    ∃ h' p, kmalloc σ.heap.clearLog zeroPages (2 ^ 64 - 1) = .ok (h', p) ∧
      p = heapBase + headerSize ∧ ¬ Delivers h' (2 ^ 64 - 1) p := by
  obtain ⟨h, hh, -, hm⟩ := heapInit_zeroPages
  obtain ⟨⟨h', p⟩, hm, hp⟩ := map_ok hm
  have hp : p = heapBase + headerSize := hp
  have hlow : heapBase ≤ p := by
    rw [hp]
    exact Nat.le_add_right _ _
  exact ⟨⟨h, []⟩, .start ⟨⟨_, _, hh⟩, rfl⟩, h', p, hm, hp, not_delivers_of_zero (by decide) hlow⟩

end Tianole.Mm
