import Tianole.Lib.Runs
import Tianole.Mm.HeapUsed

/-! The heap over whole runs: after `heap_init`, any sequence of `kmalloc`, `kfree` of live
pointers, and stores by the owners of live memory. -/
namespace Tianole.Mm
open Memory Word Tiling Runs

/-- None of the additions that `kmalloc(n)` performs overflows. -/
def NoWrap (h : Heap) (n : ℕ) : Prop :=
  n + heapAlignment < 2 ^ 64 ∧
    (findFreeBlock h (alignUpSize n heapAlignment) = .ok 0 →
      alignUpSize n heapAlignment + headerSize + pageSize < 2 ^ 64 ∧
      h.heapEnd + alignUpSize (alignUpSize n heapAlignment + headerSize) pageSize < 2 ^ 64)

section
variable {h : Heap} {l : List Block} {n : ℕ}

/-- The request is then served as intended. -/
theorem NoWrap.sized (hg : Good h l) (hn : NoWrap h n) : Sized h n := by
  obtain ⟨hsmall, hwrap⟩ := hn
  refine ⟨by omega, fun hnone => (extends_iff hg.shows.bound).mpr ?_⟩
  obtain ⟨hlt, hend⟩ := hwrap hnone
  have hw : wrap64 (alignUpSize n heapAlignment + headerSize) =
      alignUpSize n heapAlignment + headerSize := wrap64_of_lt (by omega)
  rw [← hw] at hend
  have hle := le_extensionBytes hlt.le
  simp only [headerSize] at hle
  exact ⟨by omega, hend⟩

end

/-! ### Live allocations -/

/-- Live allocations, as pointer and requested size, are used blocks with enough room. -/
structure Owns (l : List Block) (live : List (ℕ × ℕ)) : Prop where
  nodup : (live.map Prod.fst).Nodup
  used : ∀ r ∈ live, ∃ b ∈ l, b.free = false ∧ r.1 = b.addr + headerSize ∧ r.2 ≤ b.size

/-- Every block in use is a live allocation. -/
def Accounted (l : List Block) (live : List (ℕ × ℕ)) : Prop :=
  ∀ b ∈ usedBlocks l, b.addr + headerSize ∈ live.map Prod.fst

/-- The live allocations after a `kmalloc(n)` that returned `p`. -/
def grant (live : List (ℕ × ℕ)) (p n : ℕ) : List (ℕ × ℕ) :=
  if p = 0 then live else (p, n) :: live

/-- The live allocations after `kfree(p)`. -/
def revoke (live : List (ℕ × ℕ)) (p : ℕ) : List (ℕ × ℕ) := live.filter fun r => r.1 ≠ p

section
variable {h h' : Heap} {l l' : List Block} {live : List (ℕ × ℕ)} {n p : ℕ} {r : ℕ × ℕ}
  {pages : ℕ → PageOutcome}

theorem Owns.grant (ho : Owns l live) (hk : ∀ c ∈ l, c.free = false → c ∈ l')
    (hf : Fresh l l' p n) : Owns l' (grant live p n) := by
  have hold : ∀ r ∈ live, ∃ b ∈ l', b.free = false ∧ r.1 = b.addr + headerSize ∧ r.2 ≤ b.size := by
    intro r hr
    obtain ⟨b, hb, hused, hrest⟩ := ho.used r hr
    exact ⟨b, hk b hb hused, hused, hrest⟩
  unfold Mm.grant
  split
  next => exact ⟨ho.nodup, hold⟩
  next hp =>
    obtain ⟨b, hb, hused, hpb, hroom, hne⟩ := hf hp
    refine ⟨List.nodup_cons.mpr ⟨fun hm => ?_, ho.nodup⟩,
      List.forall_mem_cons.mpr ⟨⟨b, hb, hused, hpb, hroom⟩, hold⟩⟩
    -- An old pointer belongs to a block that was in use.
    obtain ⟨r, hr, hrp⟩ := List.mem_map.mp hm
    obtain ⟨c, hc, hcused, hrc, -⟩ := ho.used r hr
    refine hne c hc hcused ?_
    have heq : c.addr + headerSize = b.addr + headerSize := by rw [← hrc, ← hpb, hrp]
    omega

theorem Owns.revoke (ho : Owns l live)
    (hk : ∀ c ∈ l, c.free = false → c.addr + headerSize ≠ p → c ∈ l') : Owns l' (revoke live p) := by
  refine ⟨ho.nodup.sublist (List.filter_sublist.map _), fun r hr => ?_⟩
  obtain ⟨hr, hne⟩ := List.mem_filter.mp hr
  obtain ⟨b, hb, hused, hrb, hroom⟩ := ho.used r hr
  refine ⟨b, hk b hb hused ?_, hused, hrb, hroom⟩
  rw [← hrb]
  simpa using hne

/-- `kfree` of a live pointer. -/
theorem kfree_good (hg : Good h l) (ho : Owns l live) (hr : r ∈ live) :
    ∃ l', Good (kfree h r.1) l' ∧ Owns l' (revoke live r.1) ∧
      (kfree h r.1).heapEnd = h.heapEnd ∧
      ∀ c ∈ l, c.free = false → c.addr + headerSize ≠ r.1 → Spares c h (kfree h r.1) := by
  obtain ⟨b, hb, hused, hrb, -⟩ := ho.used r hr
  obtain ⟨l₁, l₂, rfl⟩ := List.append_of_mem hb
  obtain ⟨l', hl', hk⟩ := kfree_layout hg.shows hg.layout
  rw [← hrb] at hk
  have hother (c : Block) (hne : c.addr + headerSize ≠ r.1) : c ≠ b := by
    rintro rfl
    exact hne hrb.symm
  exact ⟨l', hk.good hg hl',
    ho.revoke fun c hc hu hne => (hk.kept c hc ⟨hu, hother c hne⟩).1, hk.heapEnd,
    fun c hc hu hne => (hk.kept c hc ⟨hu, hother c hne⟩).2⟩

/-- A store by the owner of live memory does not reach a header. -/
theorem poke_good {a width v : ℕ} (hg : Good h l) (ho : Owns l live) (hr : r ∈ live)
    (hlow : r.1 ≤ a) (hhigh : a + width ≤ r.1 + r.2) : Good (h.poke a width v) l := by
  obtain ⟨b, hb, -, hrb, hroom⟩ := ho.used r hr
  have hs := hg.shows
  refine ⟨⟨hs.linked.congr fun c hc x hx hx' => store_of_outside ?_, hs.first, hs.last, hs.tiles,
    hs.bound⟩, hg.layout, hg.mapped, hg.aligned⟩
  rcases header_outside hs.tiles hc hb with hle | hle
  · left
    omega
  · right
    simp only [Block.stop] at hle
    omega

theorem mem_revoke_fst {q : ℕ} : q ∈ (revoke live p).map Prod.fst ↔
    q ∈ live.map Prod.fst ∧ q ≠ p := by
  simp only [revoke, List.mem_map, List.mem_filter, decide_eq_true_eq]
  constructor
  · rintro ⟨r, ⟨hr, hne⟩, rfl⟩
    exact ⟨⟨r, hr, rfl⟩, hne⟩
  · rintro ⟨⟨r, hr, rfl⟩, hne⟩
    exact ⟨r, ⟨hr, hne⟩, rfl⟩

theorem Accounted.grant (ha : Accounted l live) (hg : Good h l) (hn : n = 0 ∨ Sized h n)
    (hs : kmalloc h pages n = .ok (h', p)) (hs' : Shows h' l') :
    Accounted l' (grant live p n) := by
  intro c hc
  have hpos : c.addr + headerSize ≠ 0 := by simp [headerSize]
  unfold Mm.grant
  rcases kmalloc_used hg hn hs hs' hc with hold | rfl
  · split
    · exact ha c hold
    · exact List.mem_cons_of_mem _ (ha c hold)
  · rw [if_neg hpos]
    exact List.mem_cons_self

theorem Accounted.revoke (ha : Accounted l live) (hs : Shows h l) (ho : Owns l live) (hr : r ∈ live)
    (hs' : Shows (kfree h r.1) l') : Accounted l' (revoke live r.1) := by
  obtain ⟨b, hb, hused, hrb, -⟩ := ho.used r hr
  obtain ⟨l₁, l₂, rfl⟩ := List.append_of_mem hb
  obtain ⟨l'', hs'', hblocks⟩ := kfree_used hs
  rw [← hrb] at hs''
  obtain rfl := hs'.unique hs''
  obtain ⟨t, hleft, ⟨rfl, -, hright⟩, -⟩ := hs.at
  intro c hc
  rw [hblocks, List.mem_append] at hc
  have hold : c ∈ usedBlocks (l₁ ++ b :: l₂) := by
    rw [usedBlocks_append, usedBlocks_cons_used hused]
    rcases hc with hc | hc
    · exact List.mem_append_left _ hc
    · exact List.mem_append_right _ (List.mem_cons_of_mem _ hc)
  refine mem_revoke_fst.mpr ⟨ha c hold, fun heq => ?_⟩
  -- The other blocks lie before or behind the one that was freed.
  have hb' := headerSize_le_stop b
  have hc' := headerSize_le_stop c
  simp only [headerSize] at *
  rcases hc with hc | hc
  · have hbound := (hleft.bounds (mem_usedBlocks.mp hc).1).2.2
    omega
  · have hbound := (hright.bounds (mem_usedBlocks.mp hc).1).1
    omega

/-- The heap between two calls, with the allocations that are live. -/
structure Ledger (h : Heap) (l : List Block) (live : List (ℕ × ℕ)) : Prop where
  good : Good h l
  owns : Owns l live
  accounted : Accounted l live

theorem Ledger.kmalloc (hl : Ledger h l live) (hn : n = 0 ∨ NoWrap h n)
    (hs : kmalloc h pages n = .ok (h', p)) : ∃ l', Ledger h' l' (Mm.grant live p n) ∧
      h.heapEnd ≤ h'.heapEnd ∧
      h'.heapEnd ≤ h.heapEnd + extensionBytes (alignUpSize n heapAlignment) := by
  have hsized := hn.imp_right (NoWrap.sized hl.good)
  obtain ⟨h₁, p₁, l', hok, hserved⟩ := kmalloc_served pages hl.good hsized
  obtain ⟨rfl, rfl⟩ := Prod.mk.inj (Except.ok.inj (hok.symm.trans hs))
  refine ⟨l', ⟨hserved.good,
    hl.owns.grant (fun c hc hu => (hserved.kept c hc hu).1) hserved.fresh,
    hl.accounted.grant hl.good hsized hs hserved.good.shows⟩, ?_⟩
  rcases hserved.heapEnd with hend | ⟨-, hend⟩ <;> omega

theorem Ledger.kfree (hl : Ledger h l live) (hr : (p, n) ∈ live) :
    ∃ l', Ledger (kfree h p) l' (Mm.revoke live p) ∧ (Mm.kfree h p).heapEnd = h.heapEnd := by
  obtain ⟨l', hg, ho, hend, -⟩ := kfree_good hl.good hl.owns hr
  exact ⟨l', ⟨hg, ho, hl.accounted.revoke hl.good.shows hl.owns hr hg.shows⟩, hend⟩

theorem Ledger.poke {a width v : ℕ} (hl : Ledger h l live) (hr : r ∈ live) (hlow : r.1 ≤ a)
    (hhigh : a + width ≤ r.1 + r.2) : Ledger (h.poke a width v) l live :=
  ⟨poke_good hl.good hl.owns hr hlow hhigh, hl.owns, hl.accounted⟩

/-- When nothing is live, no block is in use. -/
theorem Ledger.all_free (hl : Ledger h l []) : ∀ b ∈ l, b.free = true := by
  intro b hb
  by_contra hne
  have hused : b ∈ usedBlocks l := mem_usedBlocks.mpr ⟨hb, Bool.not_eq_true _ ▸ hne⟩
  exact absurd (hl.accounted b hused) (by simp)

end

/-! ### Initialisation -/

section
variable {h h' : Heap} {l : List Block} {live : List (ℕ × ℕ)} {mem : Mem} {n p : ℕ}
  {pages : ℕ → PageOutcome}

theorem bootHeap_good (mem : Mem) : Good (bootHeap mem) [] := by
  have hbound : heapBase < 2 ^ 64 := by decide
  have haligned : pageSize ∣ heapBase := by decide
  refine ⟨⟨trivial, rfl, rfl, rfl, hbound⟩, ⟨by simp, .nil⟩, fun x hx hlt => ?_, haligned⟩
  change x < heapBase at hlt
  omega

/-- The heap starts on a page boundary. -/
theorem bootHeap_setEnd (mem : Mem) :
    (bootHeap mem).setEnd (alignUpAddr (bootHeap mem).heapEnd pageSize) = bootHeap mem := by
  have halign : alignUpAddr heapBase pageSize = heapBase := by decide
  change (bootHeap mem).setEnd (alignUpAddr heapBase pageSize) = bootHeap mem
  rw [halign]
  rfl

theorem bootHeap_extends (mem : Mem) : Extends (bootHeap mem) (pageSize - headerSize) := by
  have hend : heapBase < wrap64 (heapBase + extensionBytes (pageSize - headerSize)) := by decide
  exact hend

/-- A small request in a small heap overflows nothing. -/
theorem noWrap_of_small (hn : alignUpSize n heapAlignment ≤ 4064) (hlt : n < 2 ^ 63)
    (hpage : alignUpSize (alignUpSize n heapAlignment + headerSize) pageSize = pageSize)
    (hend : h.heapEnd ≤ heapBase + 8 * pageSize) : NoWrap h n := by
  have hbase : heapBase + 9 * pageSize < 2 ^ 64 := by decide
  refine ⟨by simp only [heapAlignment]; omega, fun _ => ⟨?_, ?_⟩⟩
  · simp only [headerSize, pageSize]
    omega
  · rw [hpage]
    omega

theorem heapSelftest_ledger {pages : ℕ → ℕ → PageOutcome} (hl : Ledger h l [])
    (hend : h.heapEnd ≤ heapBase + pageSize) (hs : heapSelftest h pages = .ok h') :
    ∃ l', Ledger h' l' [] ∧ h.heapEnd ≤ h'.heapEnd := by
  have h8 : alignUpSize (alignUpSize 8 heapAlignment + headerSize) pageSize = pageSize := by decide
  have h128 : alignUpSize (alignUpSize 128 heapAlignment + headerSize) pageSize = pageSize := by
    decide
  have hbytes : extensionBytes (alignUpSize 8 heapAlignment) = pageSize ∧
      extensionBytes (alignUpSize 128 heapAlignment) = pageSize := by decide
  obtain ⟨⟨h₁, first⟩, hm₁, hs⟩ := bind_ok hs
  obtain ⟨⟨h₂, second⟩, hm₂, hs⟩ := bind_ok hs
  obtain ⟨l₁, hl₁, hge₁, hle₁⟩ :=
    hl.kmalloc (.inr (noWrap_of_small (by decide) (by decide) h8 (by omega))) hm₁
  obtain ⟨l₂, hl₂, hge₂, hle₂⟩ :=
    hl₁.kmalloc (.inr (noWrap_of_small (by decide) (by decide) h128 (by omega))) hm₂
  simp only at hs
  split at hs
  next => cases hs
  next hnull =>
    have hfirst : first ≠ 0 := fun h0 => hnull (.inl h0)
    have hsecond : second ≠ 0 := fun h0 => hnull (.inr h0)
    rw [grant, grant, if_neg hfirst, if_neg hsecond] at hl₂
    have hne : second ≠ first := by simpa using hl₂.owns.nodup
    -- The stores go to the two live allocations.
    have hl₃ : Ledger (h₂.poke first 8 selftestWord) l₂ [(second, 128), (first, 8)] :=
      hl₂.poke (r := (first, 8)) (by simp) le_rfl le_rfl
    have hl₄ : Ledger ((h₂.poke first 8 selftestWord).poke second 1 0x31) l₂
        [(second, 128), (first, 8)] :=
      hl₃.poke (r := (second, 128)) (by simp) le_rfl (by simp)
    have hl₅ : Ledger (((h₂.poke first 8 selftestWord).poke second 1 0x31).poke
        (second + 127) 1 0x32) l₂ [(second, 128), (first, 8)] :=
      hl₄.poke (r := (second, 128)) (by simp) (by simp) (by simp)
    split at hs
    next => cases hs
    next =>
      obtain ⟨l₆, hl₆, hend₆⟩ := hl₅.kfree (p := first) (n := 8) (by simp)
      have hlive₆ : revoke [(second, 128), (first, 8)] first = [(second, 128)] := by
        simp [revoke, hne]
      rw [hlive₆] at hl₆
      replace hend₆ : (kfree (((h₂.poke first 8 selftestWord).poke second 1 0x31).poke
          (second + 127) 1 0x32) first).heapEnd = h₂.heapEnd := hend₆
      obtain ⟨⟨h₇, third⟩, hm₇, hs⟩ := bind_ok hs
      obtain ⟨l₇, hl₇, hge₇, -⟩ := hl₆.kmalloc
        (.inr (noWrap_of_small (by decide) (by decide) h8 (by omega))) hm₇
      simp only at hs
      split at hs
      next => cases hs
      next hthird =>
        obtain rfl := Except.ok.inj hs
        rw [grant, if_neg hthird] at hl₇
        have hne' : second ≠ third := by
          have hnodup := hl₇.owns.nodup
          simp only [List.map_cons, List.map_nil, List.nodup_cons, List.mem_singleton] at hnodup
          exact fun heq => hnodup.1 heq.symm
        obtain ⟨l₈, hl₈, hend₈⟩ := hl₇.kfree (p := third) (n := 8) (by simp)
        have hlive₈ : revoke [(third, 8), (second, 128)] third = [(second, 128)] := by
          simp [revoke, hne']
        rw [hlive₈] at hl₈
        obtain ⟨l₉, hl₉, hend₉⟩ := hl₈.kfree (p := second) (n := 128) (by simp)
        have hlive₉ : revoke [(second, 128)] second = [] := by simp [revoke]
        rw [hlive₉] at hl₉
        exact ⟨l₉, hl₉, by omega⟩

theorem heapInit_ledger {pages : ℕ → ℕ → PageOutcome}
    (hs : heapInit (bootHeap mem) pages = .ok h') :
    ∃ l, Ledger h' l [] ∧ heapBase < h'.heapEnd := by
  have hbytes : extensionBytes (pageSize - headerSize) = pageSize := by decide
  obtain ⟨h₁, ret, hext, hres⟩ :=
    heapExtend_extended (pages 0) (bootHeap_good mem) (bootHeap_extends mem)
  rw [heapInit, if_neg (by simp [bootHeap])] at hs
  simp only [bootHeap_setEnd, hext, bind, Except.bind] at hs
  cases hres with
  | failed hret _ =>
    rw [if_pos hret] at hs
    cases hs
  | linked l hg _ hend =>
    rw [hbytes] at hend
    rw [if_neg (by simp)] at hs
    have hready : Good { h₁ with heapReady := true } l :=
      ⟨⟨hg.shows.linked, hg.shows.first, hg.shows.last, hg.shows.tiles, hg.shows.bound⟩,
        hg.layout, hg.mapped, hg.aligned⟩
    have hnone : Accounted l [] := by
      obtain ⟨l', hshows, hused⟩ := heapExtend_used (bootHeap_good mem) (bootHeap_extends mem) hext
      obtain rfl := hshows.unique hg.shows
      intro c hc
      rw [hused] at hc
      exact absurd hc (List.not_mem_nil)
    obtain ⟨l', hl', hle⟩ := heapSelftest_ledger ⟨hready, ⟨by simp, by simp⟩, hnone⟩ hend.le hs
    replace hle : h₁.heapEnd ≤ h'.heapEnd := hle
    replace hend : h₁.heapEnd = heapBase + pageSize := hend
    refine ⟨l', hl', ?_⟩
    simp only [pageSize] at hend
    omega

end

/-! ### Runs -/

structure HeapSystem where
  heap : Heap
  /-- Pointer and requested size of each allocation that has not been freed. -/
  live : List (ℕ × ℕ)

inductive HeapAction where
  | malloc (n : ℕ) (pages : ℕ → PageOutcome)
  | free (p : ℕ)
  /-- The owner of live memory stores a byte there. -/
  | store (a v : ℕ)

def Heap.clearLog (h : Heap) : Heap := { h with written := [] }

namespace HeapSystem

/-- A step; the record of header writes is that of this step. -/
def step (σ : HeapSystem) : HeapAction → Except Stop HeapSystem
  | .malloc n pages =>
      (kmalloc σ.heap.clearLog pages n).map fun r => ⟨r.1, grant σ.live r.2 n⟩
  | .free p => .ok ⟨kfree σ.heap.clearLog p, revoke σ.live p⟩
  | .store a v => .ok ⟨σ.heap.clearLog.poke a 1 v, σ.live⟩

/-- What callers respect: no request is so large that an addition wraps, only live pointers and
`NULL` are freed, and stores stay within the bytes that were asked for. -/
def Admissible (σ : HeapSystem) : HeapAction → Prop
  | .malloc n _ => n = 0 ∨ NoWrap σ.heap n
  | .free p => p = 0 ∨ p ∈ σ.live.map Prod.fst
  | .store a _ => ∃ r ∈ σ.live, r.1 ≤ a ∧ a < r.1 + r.2

/-- The states after `heap_init` and any admissible steps. -/
def Reachable : HeapSystem → Prop :=
  Reach step (fun σ => (∃ mem pages, heapInit (bootHeap mem) pages = .ok σ.heap) ∧ σ.live = [])
    Admissible

/-- The end of the payload at `p`, by the header before it. -/
def payloadEnd (σ : HeapSystem) (p : ℕ) : ℕ := p + σ.heap.size (p - headerSize)

/-- The representation invariant of the heap, and what the holders of live memory rely on. -/
structure Safe (σ : HeapSystem) : Prop where
  /-- The list of blocks is linked both ways from `heap_first` to `heap_last`, tiles the heap,
  has positive aligned sizes and no two free neighbours. -/
  blocks : ∃ l, Shows σ.heap l ∧ Layout l
  aligned : ∀ r ∈ σ.live, heapAlignment ∣ r.1
  room : ∀ r ∈ σ.live, r.1 + r.2 ≤ σ.payloadEnd r.1
  inside : ∀ r ∈ σ.live, heapBase ≤ r.1 ∧ σ.payloadEnd r.1 ≤ σ.heap.heapEnd
  mapped : ∀ r ∈ σ.live, ∀ x, r.1 ≤ x → x < σ.payloadEnd r.1 →
    σ.heap.mapped (x / pageSize * pageSize) = true
  disjoint : σ.live.Pairwise fun r r' =>
    σ.payloadEnd r.1 ≤ r'.1 ∨ σ.payloadEnd r'.1 ≤ r.1

section
variable {σ σ' : HeapSystem} {h : Heap} {l : List Block} {b : Block} {r : ℕ × ℕ} {n : ℕ}
  {act : HeapAction}

theorem addr_aligned {s e : ℕ} (ht : Tiles Block.addr Block.stop s l e) (hs : heapAlignment ∣ s)
    (hl : ∀ b ∈ l, heapAlignment ∣ b.size) (hb : b ∈ l) : heapAlignment ∣ b.addr := by
  induction l generalizing s with
  | nil => cases hb
  | cons c l ih =>
    obtain ⟨hc, -, htl⟩ := ht
    have hstart : heapAlignment ∣ c.addr := hc ▸ hs
    rcases List.mem_cons.mp hb with rfl | hb'
    · exact hstart
    · have hheader : heapAlignment ∣ headerSize := by decide
      have hstop : heapAlignment ∣ c.stop :=
        Nat.dvd_add (Nat.dvd_add hstart hheader) (hl c (by simp))
      exact ih htl hstop (fun d hd => hl d (by simp [hd])) hb'

/-- The payload of a live allocation is that of its block. -/
theorem payloadEnd_eq (hs : Shows σ.heap l) (hb : b ∈ l) (hr : r.1 = b.addr + headerSize) :
    σ.payloadEnd r.1 = b.stop := by
  obtain ⟨prev, next, hheader⟩ := hs.linked.mem hb
  have hsize : σ.heap.size (r.1 - headerSize) = b.size := by
    rw [hr, Nat.add_sub_cancel]
    exact hheader.size_eq
  rw [payloadEnd, hsize, hr]
  rfl

/-- Distinct live allocations lie apart. -/
theorem disjoint_of_owns (hs : Shows σ.heap l) (ho : Owns l σ.live) :
    σ.live.Pairwise fun r r' => σ.payloadEnd r.1 ≤ r'.1 ∨ σ.payloadEnd r'.1 ≤ r.1 := by
  refine (List.pairwise_map.mp ho.nodup).imp_of_mem fun {r r'} hr hr' hne => ?_
  obtain ⟨b, hb, -, hrb, -⟩ := ho.used r hr
  obtain ⟨c, hc, -, hrc, -⟩ := ho.used r' hr'
  rw [payloadEnd_eq hs hb hrb, payloadEnd_eq hs hc hrc]
  rcases header_outside hs.tiles hb hc with hbc | hcb
  · rcases header_outside hs.tiles hc hb with hcb | hbc'
    · omega
    · left
      omega
  · right
    omega

theorem safe_of_good (hg : Good σ.heap l) (ho : Owns l σ.live) : σ.Safe := by
  have hs := hg.shows
  have hbase : heapAlignment ∣ heapBase ∧ heapAlignment ∣ headerSize := by decide
  refine ⟨⟨l, hs, hg.layout⟩, fun r hr => ?_, fun r hr => ?_, fun r hr => ?_, fun r hr x hx hlt => ?_,
    disjoint_of_owns hs ho⟩
  all_goals
    obtain ⟨b, hb, -, hrb, hroom⟩ := ho.used r hr
    have hbounds := hs.tiles.bounds hb
    have hend := payloadEnd_eq hs hb hrb
  · rw [hrb]
    exact Nat.dvd_add
      (addr_aligned hs.tiles hbase.1 (fun c hc => (hg.layout.size c hc).2) hb) hbase.2
  · rw [hend, Block.stop]
    omega
  · omega
  · exact hg.mapped x (by omega) (by omega)

theorem clearLog_good (hg : Good h l) : Good h.clearLog l :=
  ⟨⟨hg.shows.linked, hg.shows.first, hg.shows.last, hg.shows.tiles, hg.shows.bound⟩, hg.layout,
    hg.mapped, hg.aligned⟩

theorem clearLog_find (hg : Good h l) (size : ℕ) :
    findFreeBlock h.clearLog size = findFreeBlock h size := by
  rw [findFreeBlock_eq _ (clearLog_good hg).shows, findFreeBlock_eq _ hg.shows]

theorem clearLog_noWrap (hg : Good h l) (hn : NoWrap h n) : NoWrap h.clearLog n :=
  ⟨hn.1, fun hfind => hn.2 (clearLog_find hg _ ▸ hfind)⟩

/-- The header fields that a step from `σ` to `σ'` wrote lie outside the payload at `p`. -/
def WroteOutside (σ σ' : HeapSystem) (p : ℕ) : Prop :=
  ∀ w ∈ σ'.heap.written, w.1 + w.2 ≤ p ∨ σ.payloadEnd p ≤ w.1

theorem wroteOutside_of_spares (hs : Shows σ.heap l) (hb : b ∈ l) (hr : r.1 = b.addr + headerSize)
    (hsp : Spares b σ.heap.clearLog σ'.heap) : WroteOutside σ σ' r.1 := by
  intro w hw
  obtain ⟨new, hnew, hout⟩ := hsp
  rw [hnew] at hw
  rw [payloadEnd_eq hs hb hr, hr]
  exact hout w (by simpa [Heap.clearLog] using hw)

/-- An admissible step returns, keeps the invariant, and leaves alone the payloads of the
allocations that it does not free. -/
theorem step_good (hg : Good σ.heap l) (ho : Owns l σ.live) (ha : σ.Admissible act) :
    ∃ σ' l', σ.step act = .ok σ' ∧ Good σ'.heap l' ∧ Owns l' σ'.live ∧
      ∀ r ∈ σ.live, act ≠ .free r.1 → WroteOutside σ σ' r.1 := by
  have hg₀ := clearLog_good hg
  cases act with
  | malloc n pages =>
    have hn : n = 0 ∨ NoWrap σ.heap.clearLog n := ha.imp_right (clearLog_noWrap hg)
    obtain ⟨h', p, l', hok, hserved⟩ :=
      kmalloc_served pages hg₀ (hn.imp_right (NoWrap.sized hg₀))
    refine ⟨⟨h', grant σ.live p n⟩, l', ?_, hserved.good,
      ho.grant (fun c hc hu => (hserved.kept c hc hu).1) hserved.fresh, fun r hr _ => ?_⟩
    · simp only [step, hok, Except.map]
    · obtain ⟨b, hb, hused, hrb, -⟩ := ho.used r hr
      exact wroteOutside_of_spares hg.shows hb hrb (hserved.kept b hb hused).2
  | free p =>
    rcases ha with rfl | hp
    · -- `kfree(NULL)` changes nothing, and no live pointer is `NULL`.
      refine ⟨⟨kfree σ.heap.clearLog 0, revoke σ.live 0⟩, l, rfl, hg₀,
        ho.revoke fun c hc _ _ => hc, fun r _ _ w hw => ?_⟩
      cases hw
    · obtain ⟨r₀, hr₀, rfl⟩ := List.mem_map.mp hp
      obtain ⟨l', hg', ho', -, hsp⟩ := kfree_good hg₀ ho hr₀
      refine ⟨_, l', rfl, hg', ho', fun r hr hne => ?_⟩
      obtain ⟨b, hb, hused, hrb, -⟩ := ho.used r hr
      refine wroteOutside_of_spares hg.shows hb hrb (hsp b hb hused fun he => hne ?_)
      rw [hrb, he]
  | store a v =>
    obtain ⟨r₀, hr₀, hlow, hhigh⟩ := ha
    refine ⟨_, l, rfl, poke_good hg₀ ho hr₀ hlow hhigh, ho, fun r _ _ w hw => ?_⟩
    cases hw

theorem step_keeps (hg : Good σ.heap l) (ho : Owns l σ.live) (ha : σ.Admissible act)
    (hs : σ.step act = .ok σ') : ∃ l', Good σ'.heap l' ∧ Owns l' σ'.live := by
  obtain ⟨σ₁, l', hs₁, hg', ho', -⟩ := step_good hg ho ha
  obtain rfl := Except.ok.inj (hs₁.symm.trans hs)
  exact ⟨l', hg', ho'⟩

/-- The invariant of runs, for any condition on the steps under which one step keeps it. -/
theorem good_of_reach {allowed : HeapSystem → HeapAction → Prop}
    (hkeeps : ∀ {σ σ' : HeapSystem} {l : List Block} {act : HeapAction}, Good σ.heap l →
      Owns l σ.live → allowed σ act → σ.step act = .ok σ' →
        ∃ l', Good σ'.heap l' ∧ Owns l' σ'.live)
    (h : Reach step (fun σ => (∃ mem pages, heapInit (bootHeap mem) pages = .ok σ.heap) ∧
      σ.live = []) allowed σ) : ∃ l, Good σ.heap l ∧ Owns l σ.live := by
  refine Reach.invariant (I := fun σ => ∃ l, Good σ.heap l ∧ Owns l σ.live) h ?_ ?_
  · rintro σ ⟨⟨mem, pages, hinit⟩, hlive⟩
    obtain ⟨l, hl, -⟩ := heapInit_ledger hinit
    exact ⟨l, hl.good, by rw [hlive]; exact hl.owns⟩
  · rintro σ act σ' ⟨l, hg, ho⟩ ha hs
    exact hkeeps hg ho ha hs

end

end HeapSystem

/-- After `heap_init` and any `kmalloc`, `kfree` and stores of the callers, the heap is well
formed and live memory is aligned, mapped, large enough and disjoint; and every further
admissible step returns and writes no header field into the payload of an allocation that it
does not free. -/
theorem heap_reachable_safe {σ : HeapSystem} (h : σ.Reachable) :
    σ.Safe ∧ ∀ act, σ.Admissible act → ∃ σ', σ.step act = .ok σ' ∧
      ∀ r ∈ σ.live, act ≠ .free r.1 → σ.WroteOutside σ' r.1 := by
  obtain ⟨l, hg, ho⟩ := HeapSystem.good_of_reach HeapSystem.step_keeps h
  refine ⟨HeapSystem.safe_of_good hg ho, fun act ha => ?_⟩
  obtain ⟨σ', -, hs, -, -, hw⟩ := HeapSystem.step_good hg ho ha
  exact ⟨σ', hs, hw⟩

theorem heap_reachable_safe_malloc : ∃ σ : HeapSystem, σ.Reachable ∧
    σ.live = [(heapBase + headerSize, 24)] ∧ σ.Safe := by
  let zero : PageOutcome := ⟨pageSize, 0, fun _ => 0⟩
  let start : Except Stop Heap := heapInit (bootHeap fun _ => 0) fun _ _ => zero
  have hboot : start.map Heap.heapEnd = .ok (heapBase + pageSize) := by decide +kernel
  have hrun : (start.bind fun h => (HeapSystem.mk h []).step (.malloc 24 fun _ => zero)).map
      HeapSystem.live = .ok [(heapBase + headerSize, 24)] := by decide +kernel
  obtain ⟨h, hh, hend⟩ := map_ok hboot
  obtain ⟨σ, hσ, hlive⟩ := map_ok hrun
  rw [hh] at hσ
  have hwrap : NoWrap h 24 := noWrap_of_small (by decide) (by decide) (by decide) (by omega)
  have hstart : (HeapSystem.mk h []).Reachable := .start ⟨⟨_, _, hh⟩, rfl⟩
  have hadm : (HeapSystem.mk h []).Admissible (.malloc 24 fun _ => zero) := .inr hwrap
  have hreach : σ.Reachable := .next hstart hadm hσ
  exact ⟨σ, hreach, hlive, (heap_reachable_safe hreach).1⟩

end Tianole.Mm
