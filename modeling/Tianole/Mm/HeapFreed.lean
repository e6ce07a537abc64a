import Tianole.Mm.HeapSafety

/-! Freeing everything leaves one block: over every run the blocks in use are the live
allocations, and neighbours that are both free have been merged, so a heap without live
allocations consists of the one block that spans it. -/
namespace Tianole.Mm
open Memory Word Tiling Runs

section
variable {h : Heap} {l : List Block}

/-- A well-formed list without a block in use has at most one block. -/
theorem Layout.eq_singleton (hl : Layout l) (hfree : ∀ b ∈ l, b.free = true) (hne : l ≠ []) :
    ∃ b, l = [b] := by
  cases l with
  | nil => exact absurd rfl hne
  | cons b l =>
    cases l with
    | nil => exact ⟨b, rfl⟩
    | cons c l =>
      have hnot := (List.isChain_cons_cons.mp hl.coalesced).1
      exact absurd ⟨hfree b (by simp), hfree c (by simp)⟩ hnot

/-- The free block that is the whole heap up to `e`. -/
def spanningBlock (e : ℕ) : Block := ⟨heapBase, e - heapBase - headerSize, true⟩

theorem Ledger.eq_spanningBlock (hl : Ledger h l []) (hend : heapBase < h.heapEnd) :
    l = [spanningBlock h.heapEnd] ∧ heapBase + headerSize < h.heapEnd := by
  have htiles := hl.good.shows.tiles
  have hne : l ≠ [] := by
    rintro rfl
    exact absurd htiles hend.ne
  obtain ⟨b, rfl⟩ := hl.good.layout.eq_singleton hl.all_free hne
  obtain ⟨haddr, -, hstop⟩ := htiles
  have hfree := hl.all_free b (by simp)
  have hsize := (hl.good.layout.size b (by simp)).1
  replace hstop : b.addr + headerSize + b.size = h.heapEnd := hstop
  constructor
  · cases b
    simp only at haddr hfree hstop
    simp only [spanningBlock, List.cons.injEq, Block.mk.injEq, and_true]
    refine ⟨haddr, ?_, hfree⟩
    omega
  · omega

end

namespace HeapSystem

section
variable {σ σ' : HeapSystem} {l : List Block} {act : HeapAction}

theorem clearLog_ledger {h : Heap} {live : List (ℕ × ℕ)} (hl : Ledger h l live) :
    Ledger h.clearLog l live :=
  ⟨clearLog_good hl.good, hl.owns, hl.accounted⟩

/-- An admissible step keeps the blocks in use and the live allocations together, and the heap
does not shrink. -/
theorem step_ledger (hl : Ledger σ.heap l σ.live) (ha : σ.Admissible act)
    (hs : σ.step act = .ok σ') :
    ∃ l', Ledger σ'.heap l' σ'.live ∧ σ.heap.heapEnd ≤ σ'.heap.heapEnd := by
  have hl₀ := clearLog_ledger hl
  cases act with
  | malloc n pages =>
    obtain ⟨⟨h', p⟩, hok, rfl⟩ := map_ok hs
    obtain ⟨l', hl', hle, -⟩ := hl₀.kmalloc (ha.imp_right (clearLog_noWrap hl.good)) hok
    exact ⟨l', hl', hle⟩
  | free p =>
    obtain rfl := Except.ok.inj hs
    rcases ha with rfl | hp
    · -- No live pointer is `NULL`, so nothing is taken off the account.
      refine ⟨l, ⟨hl₀.good, hl.owns.revoke fun c hc _ _ => hc, fun b hb => ?_⟩, le_rfl⟩
      exact mem_revoke_fst.mpr ⟨hl.accounted b hb, by simp [headerSize]⟩
    · obtain ⟨⟨q, n⟩, hr, rfl⟩ := List.mem_map.mp hp
      obtain ⟨l', hl', hend⟩ := hl₀.kfree hr
      exact ⟨l', hl', hend.ge⟩
  | store a v =>
    obtain rfl := Except.ok.inj hs
    obtain ⟨r, hr, hlow, hhigh⟩ := ha
    exact ⟨l, hl₀.poke hr hlow hhigh, le_rfl⟩

theorem Reachable.ledger (h : σ.Reachable) :
    ∃ l, Ledger σ.heap l σ.live ∧ heapBase < σ.heap.heapEnd := by
  refine Reach.invariant
    (I := fun σ => ∃ l, Ledger σ.heap l σ.live ∧ heapBase < σ.heap.heapEnd) h ?_ ?_
  · rintro σ ⟨⟨mem, pages, hinit⟩, hlive⟩
    obtain ⟨l, hl, hend⟩ := heapInit_ledger hinit
    exact ⟨l, hlive ▸ hl, hend⟩
  · rintro σ act σ' ⟨l, hl, hend⟩ ha hs
    obtain ⟨l', hl', hle⟩ := step_ledger hl ha hs
    exact ⟨l', hl', hend.trans_le hle⟩

/-- The block lists that a heap without live allocations spells. -/
theorem Reachable.shows_iff (h : σ.Reachable) (hfreed : σ.live = []) :
    Shows σ.heap l ↔ l = [spanningBlock σ.heap.heapEnd] := by
  obtain ⟨l₀, hl₀, hend⟩ := h.ledger
  rw [hfreed] at hl₀
  obtain ⟨rfl, -⟩ := hl₀.eq_spanningBlock hend
  constructor
  · intro hs
    exact hs.unique hl₀.good.shows
  · rintro rfl
    exact hl₀.good.shows

end

end HeapSystem

/-- After `heap_init` and any `kmalloc`, `kfree` and stores of the callers, a heap whose
allocations have all been freed is one free block from `HEAP_BASE` to `heap_end`, first and last
in the list; so two such heaps of the same extent have the same blocks. -/
theorem heap_freed_single_block {σ : HeapSystem} (h : σ.Reachable) (hfreed : σ.live = []) :
    σ.heap.heapFirst = heapBase ∧ σ.heap.heapLast = heapBase ∧
      heapBase + headerSize < σ.heap.heapEnd ∧
      (∀ l, Shows σ.heap l ↔ l = [⟨heapBase, σ.heap.heapEnd - heapBase - headerSize, true⟩]) ∧
      ∀ τ : HeapSystem, τ.Reachable → τ.live = [] → τ.heap.heapEnd = σ.heap.heapEnd →
        ∀ l, Shows τ.heap l ↔ Shows σ.heap l := by
  obtain ⟨l, hl, hend⟩ := h.ledger
  rw [hfreed] at hl
  obtain ⟨rfl, hroom⟩ := hl.eq_spanningBlock hend
  refine ⟨hl.good.shows.first, hl.good.shows.last, hroom, fun l => h.shows_iff hfreed, ?_⟩
  intro τ hτ hτfreed hsame l
  rw [hτ.shows_iff hτfreed, h.shows_iff hfreed, hsame]

theorem heap_freed_single_block_extended : ∃ σ : HeapSystem, σ.Reachable ∧ σ.live = [] ∧
    σ.heap.heapEnd = heapBase + 2 * pageSize ∧
    Shows σ.heap [⟨heapBase, 2 * pageSize - headerSize, true⟩] := by
  let zero : PageOutcome := ⟨pageSize, 0, fun _ => 0⟩
  let start : Except Stop Heap := heapInit (bootHeap fun _ => 0) fun _ _ => zero
  let request : HeapAction := .malloc 4000 fun _ => zero
  let p := heapBase + headerSize
  let q := p + 4000 + headerSize
  -- The second request does not fit into the rest of the first page, so the heap grows.
  have hboot : start.map Heap.heapEnd = .ok (heapBase + pageSize) := by decide +kernel
  have hrun₁ : (start.bind fun h => (HeapSystem.mk h []).step request).map
      (fun σ => (σ.live, σ.heap.heapEnd)) = .ok ([(p, 4000)], heapBase + pageSize) := by
    decide +kernel
  have hrun₂ : (start.bind fun h => (HeapSystem.mk h []).step request |>.bind fun σ =>
      σ.step request).map (fun σ => (σ.live, σ.heap.heapEnd)) =
        .ok ([(q, 4000), (p, 4000)], heapBase + 2 * pageSize) := by decide +kernel
  have hrun₃ : (start.bind fun h => (HeapSystem.mk h []).step request |>.bind fun σ =>
      σ.step request |>.bind fun σ => σ.step (.free p) |>.bind fun σ => σ.step (.free q)).map
        (fun σ => (σ.live, σ.heap.heapEnd)) = .ok ([], heapBase + 2 * pageSize) := by
    decide +kernel
  have hwrap {h : Heap} (hend : h.heapEnd = heapBase + pageSize) : NoWrap h 4000 :=
    noWrap_of_small (by decide) (by decide) (by decide) (by omega)
  obtain ⟨h, hh, hend⟩ := map_ok hboot
  rw [hh] at hrun₁ hrun₂ hrun₃
  obtain ⟨σ₁, hσ₁, hseen₁⟩ := map_ok hrun₁
  replace hσ₁ : (HeapSystem.mk h []).step request = .ok σ₁ := hσ₁
  have hstart : (HeapSystem.mk h []).Reachable := .start ⟨⟨_, _, hh⟩, rfl⟩
  have hreach₁ : σ₁.Reachable := .next hstart (a := request) (.inr (hwrap hend)) hσ₁
  simp only [Except.bind, hσ₁] at hrun₂ hrun₃
  obtain ⟨σ₂, hσ₂, hseen₂⟩ := map_ok hrun₂
  have hreach₂ : σ₂.Reachable :=
    .next hreach₁ (a := request) (.inr (hwrap (Prod.mk.inj hseen₁).2)) hσ₂
  have hlive := (Prod.mk.inj hseen₂).1
  simp only [hσ₂] at hrun₃
  obtain ⟨τ, hτ, hseen⟩ := map_ok hrun₃
  obtain ⟨hfreed, hsize⟩ := Prod.mk.inj hseen
  have hreach₃ : (HeapSystem.mk (kfree σ₂.heap.clearLog p) (revoke σ₂.live p)).Reachable :=
    .next hreach₂ (a := .free p) (.inr (by simp [hlive])) rfl
  have hheld : q ∈ (revoke σ₂.live p).map Prod.fst :=
    mem_revoke_fst.mpr ⟨by simp [hlive], by decide⟩
  have hreach : τ.Reachable := .next hreach₃ (a := .free q) (.inr hheld) hτ
  have hshows := ((heap_freed_single_block hreach hfreed).2.2.2.1 _).mpr rfl
  refine ⟨τ, hreach, hfreed, hsize, ?_⟩
  have hspan : τ.heap.heapEnd - heapBase - headerSize = 2 * pageSize - headerSize := by omega
  rwa [hspan] at hshows

end Tianole.Mm
