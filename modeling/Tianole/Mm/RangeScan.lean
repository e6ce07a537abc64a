import Tianole.Lib.Runs
import Tianole.Mm.PageAlloc

/-! Which pages the loop of `add_conventional_range` looks at. It counts down in unsigned
arithmetic and stops on equality, so it depends on both ends being aligned and ordered. They are,
unless the page behind the first one already wraps: an empty range just below the last page. -/
namespace Tianole.Mm
open Runs Word

/-- The values of `page` in the loop of `add_conventional_range`. -/
def pageLoop (first : ℕ) : ℕ → ℕ → Except Stop (List ℕ)
  | 0, _ => .error .hang
  | n + 1, page =>
      if page = first then .ok [page]
      else (pageLoop first n (sub64 page pageSize)).map (page :: ·)

/-- The pages that `add_conventional_range` considers, in order. -/
def consideredPages (start pages : ℕ) : Except Stop (List ℕ) :=
  let first := alignUp start pageSize
  let stop := wrap64 (start + wrap64 (pages * pageSize))
  if stop < wrap64 (first + pageSize) then .ok []
  else pageLoop first (2 ^ 52) (alignDown (sub64 stop pageSize) pageSize)

/-- The aligned pages inside the range, each once, counted down without wrapping. -/
structure ScansRange (start pages : ℕ) (scanned : List ℕ) : Prop where
  mem : ∀ page, page ∈ scanned ↔
    pageSize ∣ page ∧ start ≤ page ∧ page + pageSize ≤ start + pages * pageSize
  descending : scanned.Pairwise (· > ·)
  unwrapped : scanned.IsChain fun page next => next + pageSize = page

section
variable {env : BootEnv} {st : PageAllocator} {first page start pages n k : ℕ} {l : List ℕ}

/-! ### The loop that adds the pages -/

theorem rangeLoop_eq_foldlM (h : pageLoop first n page = .ok l) :
    rangeLoop env first n st page = l.foldlM (offerPage env) st := by
  induction n generalizing st page l with
  | zero => cases h
  | succ n ih =>
    rw [pageLoop] at h
    rw [rangeLoop]
    split at h
    next hlast =>
      obtain rfl := Except.ok.inj h
      rw [List.foldlM_cons]
      exact congrArg ((offerPage env st page).bind ·) (funext fun st => if_pos hlast)
    next hmore =>
      obtain ⟨rest, hrest, rfl⟩ := map_ok h
      rw [List.foldlM_cons]
      exact congrArg ((offerPage env st page).bind ·)
        (funext fun st => (if_neg hmore).trans (ih hrest))

/-- The body of the loop is run for the considered pages and for no others. -/
theorem addConventionalRange_eq_foldlM (h : consideredPages start pages = .ok l) :
    addConventionalRange env st start pages = l.foldlM (offerPage env) st := by
  unfold consideredPages at h
  unfold addConventionalRange
  dsimp only at h ⊢
  split_ifs at h ⊢
  · obtain rfl := Except.ok.inj h
    rfl
  · exact rangeLoop_eq_foldlM h

/-! ### Counting down -/

/-- The pages from `first + k * pageSize` down to `first`. -/
def descend (first : ℕ) : ℕ → List ℕ
  | 0 => [first]
  | k + 1 => (first + (k + 1) * pageSize) :: descend first k

theorem mem_descend : page ∈ descend first k ↔ ∃ i ≤ k, page = first + i * pageSize := by
  induction k with
  | zero => simp [descend]
  | succ k ih =>
    rw [descend, List.mem_cons, ih]
    constructor
    · rintro (rfl | ⟨i, hi, rfl⟩)
      · exact ⟨k + 1, le_rfl, rfl⟩
      · exact ⟨i, by omega, rfl⟩
    · rintro ⟨i, hi, rfl⟩
      rcases Nat.lt_or_eq_of_le hi with hlt | rfl
      · exact .inr ⟨i, by omega, rfl⟩
      · exact .inl rfl

theorem descend_pairwise : (descend first k).Pairwise (· > ·) := by
  induction k with
  | zero => exact List.pairwise_singleton _ _
  | succ k ih =>
    refine List.pairwise_cons.mpr ⟨fun page hpage => ?_, ih⟩
    obtain ⟨i, hi, rfl⟩ := mem_descend.mp hpage
    simp only [pageSize]
    omega

theorem descend_isChain :
    (descend first k).IsChain fun page next => next + pageSize = page := by
  induction k with
  | zero => exact .singleton _
  | succ k ih =>
    have hstep (i : ℕ) : first + i * pageSize + pageSize = first + (i + 1) * pageSize := by
      rw [Nat.succ_mul, Nat.add_assoc]
    cases k with
    | zero => exact List.isChain_cons_cons.mpr ⟨by rw [Nat.zero_add, Nat.one_mul], ih⟩
    | succ k => exact List.isChain_cons_cons.mpr ⟨hstep _, ih⟩

theorem sub64_page {a : ℕ} (ha : a + pageSize < 2 ^ 64) : sub64 (a + pageSize) pageSize = a := by
  rw [sub64_of_le (Nat.le_add_left _ _) ha, Nat.add_sub_cancel]

/-- The loop reaches `first` when it starts above it. -/
theorem pageLoop_descend (hn : k < n) (hk : first + k * pageSize < 2 ^ 64) :
    pageLoop first n (first + k * pageSize) = .ok (descend first k) := by
  induction k generalizing n with
  | zero =>
    obtain ⟨n, rfl⟩ : ∃ m, n = m + 1 := ⟨n - 1, by omega⟩
    have hpage : first + 0 * pageSize = first := by omega
    rw [hpage, pageLoop, if_pos rfl]
    rfl
  | succ k ih =>
    obtain ⟨n, rfl⟩ : ∃ m, n = m + 1 := ⟨n - 1, by omega⟩
    have hne : first + (k + 1) * pageSize ≠ first := by
      simp only [pageSize]
      omega
    have hstep : first + (k + 1) * pageSize = first + k * pageSize + pageSize := by
      rw [Nat.succ_mul, Nat.add_assoc]
    rw [pageLoop, if_neg hne, hstep, sub64_page (hstep ▸ hk), ih (by omega) (by omega), descend,
      hstep]
    rfl

/-- When it starts below the last page and has to end there, it passes every page down to 0 and
wraps. -/
theorem pageLoop_wraps (hn : k + 1 < n) (hk : k * pageSize < 2 ^ 64 - pageSize) :
    pageLoop (2 ^ 64 - pageSize) n (k * pageSize) =
      .ok (descend 0 k ++ [2 ^ 64 - pageSize]) := by
  induction k generalizing n with
  | zero =>
    obtain ⟨n, rfl⟩ : ∃ m, n = m + 2 := ⟨n - 2, by omega⟩
    have hwrap : sub64 0 pageSize = 2 ^ 64 - pageSize := by decide
    rw [Nat.zero_mul, pageLoop, if_neg (by decide), hwrap, pageLoop, if_pos rfl]
    rfl
  | succ k ih =>
    obtain ⟨n, rfl⟩ : ∃ m, n = m + 1 := ⟨n - 1, by omega⟩
    have hstep : (k + 1) * pageSize = k * pageSize + pageSize := Nat.succ_mul _ _
    have hsub : sub64 (k * pageSize + pageSize) pageSize = k * pageSize :=
      sub64_page (by omega)
    rw [pageLoop, if_neg (by omega), hstep, hsub, ih (by omega) (by omega), descend,
      Nat.zero_add, hstep]
    rfl

/-! ### The two ends -/

theorem alignUp_page (h : start + pageSize < 2 ^ 64) :
    alignUp start pageSize = (start + 4095) / 4096 * 4096 :=
  alignUp_eq (k := 12) (by decide) (by simp only [pageSize] at h; omega)

theorem alignDown_page {a : ℕ} (h : a < 2 ^ 64) : alignDown a pageSize = a / 4096 * 4096 :=
  alignDown_eq (k := 12) (by decide) h

theorem range_stop (h : start + pages * pageSize < 2 ^ 64) :
    wrap64 (start + wrap64 (pages * pageSize)) = start + pages * pageSize := by
  rw [wrap64_of_lt (n := pages * pageSize) (by omega), wrap64_of_lt h]

/-- The scan of a range that does not reach up to the last page. -/
theorem consideredPages_scans (h : start + pages * pageSize + pageSize < 2 ^ 64)
    (hroom : pages = 0 → start ≤ 2 ^ 64 - 2 * pageSize) :
    ∃ l, consideredPages start pages = .ok l ∧ ScansRange start pages l := by
  have hfirst : alignUp start pageSize = (start + 4095) / 4096 * 4096 := alignUp_page (by omega)
  have hstop : wrap64 (start + wrap64 (pages * pageSize)) = start + pages * pageSize :=
    range_stop (by omega)
  have hsize : pageSize = 4096 := rfl
  have hbehind : wrap64 ((start + 4095) / 4096 * 4096 + pageSize) =
      (start + 4095) / 4096 * 4096 + pageSize := by
    refine wrap64_of_lt ?_
    rw [hsize] at h hroom ⊢
    omega
  unfold consideredPages
  dsimp only
  rw [hfirst, hstop, hbehind]
  split
  next hnone =>
    refine ⟨[], rfl, fun page => ?_, .nil, .nil⟩
    simp only [List.not_mem_nil, false_iff, not_and, hsize] at hnone ⊢
    omega
  next hsome =>
    -- The last page lies above the first one, and both are aligned.
    obtain ⟨k, hk⟩ : ∃ k, (start + pages * pageSize - pageSize) / 4096 =
        (start + 4095) / 4096 + k := by
      refine Nat.exists_eq_add_of_le ?_
      rw [hsize] at hsome ⊢
      omega
    have hlast : alignDown (sub64 (start + pages * pageSize) pageSize) pageSize =
        (start + 4095) / 4096 * 4096 + k * pageSize := by
      rw [sub64_of_le (by omega) (by omega), alignDown_page (by omega), hk, hsize]
      omega
    rw [hlast]
    rw [hsize] at h hsome hk
    refine ⟨_, pageLoop_descend (by omega) (by rw [hsize]; omega), fun page => ?_,
      descend_pairwise, descend_isChain⟩
    rw [mem_descend, hsize]
    constructor
    · rintro ⟨i, hi, rfl⟩
      omega
    · rintro ⟨⟨q, rfl⟩, hlow, hhigh⟩
      exact ⟨q - (start + 4095) / 4096, by omega, by omega⟩

/-- An empty range just below the last page: the loop wraps through the whole address space. -/
theorem consideredPages_wraps (hlow : 2 ^ 64 - 2 * pageSize < start)
    (hhigh : start + pageSize < 2 ^ 64) : ∃ k, consideredPages start 0 =
      .ok (descend 0 k ++ [2 ^ 64 - pageSize]) := by
  have hfirst := alignUp_page hhigh
  have hstop : wrap64 (start + wrap64 (0 * pageSize)) = start + 0 * pageSize :=
    range_stop (by omega)
  have hsize : pageSize = 4096 := rfl
  have hup : (start + 4095) / 4096 * 4096 = 2 ^ 64 - pageSize := by
    rw [hsize] at hlow hhigh ⊢
    omega
  have hbehind : wrap64 (2 ^ 64 - pageSize + pageSize) = 0 := by decide
  have hlast : alignDown (sub64 start pageSize) pageSize = (start - 4096) / 4096 * pageSize := by
    rw [sub64_of_le (by omega) (by omega), alignDown_page (by omega), hsize]
  refine ⟨(start - 4096) / 4096, ?_⟩
  unfold consideredPages
  dsimp only
  rw [hfirst, hstop, Nat.zero_mul, Nat.add_zero, hup, hbehind, if_neg (Nat.not_lt_zero _), hlast]
  rw [hsize] at hlow hhigh
  exact pageLoop_wraps (by omega) (by rw [hsize]; omega)

theorem descend_wrapped_not_scansRange : ¬ ScansRange start 0 (descend 0 k ++ [2 ^ 64 - pageSize]) := by
  intro h
  have hzero : 0 ∈ descend 0 k ++ [2 ^ 64 - pageSize] :=
    List.mem_append_left _ (mem_descend.mpr ⟨0, Nat.zero_le _, rfl⟩)
  obtain ⟨-, hlow, hhigh⟩ := (h.mem 0).mp hzero
  simp only [pageSize] at hhigh
  omega

end

/-- `add_conventional_range` considers the aligned pages inside the range, each once and downwards,
exactly if the range is not an empty one that begins in the page before the last one. -/
theorem range_scan_exact_iff {start pages : ℕ} (h : start + pages * pageSize + pageSize < 2 ^ 64) :
    (∃ l, consideredPages start pages = .ok l ∧ ScansRange start pages l ∧
        ∀ env st, addConventionalRange env st start pages = l.foldlM (offerPage env) st) ↔
      (pages = 0 → start ≤ 2 ^ 64 - 2 * pageSize) := by
  constructor
  · rintro ⟨l, hl, hscan, -⟩ rfl
    by_contra hlow
    obtain ⟨k, hwraps⟩ := consideredPages_wraps (Nat.lt_of_not_le hlow) (by omega)
    obtain rfl := Except.ok.inj (hl.symm.trans hwraps)
    exact descend_wrapped_not_scansRange hscan
  · intro hroom
    obtain ⟨l, hl, hscan⟩ := consideredPages_scans h hroom
    exact ⟨l, hl, hscan, fun env st => addConventionalRange_eq_foldlM hl⟩

/-- Three pages from an unaligned address. -/
theorem range_scan_exact_iff_unaligned : ∃ l, consideredPages 100 3 = .ok l ∧ ScansRange 100 3 l ∧
    ∀ env st, addConventionalRange env st 100 3 = l.foldlM (offerPage env) st :=
  (range_scan_exact_iff (by decide)).mpr (by decide)

/-- No page lies in an empty range, but the loop considers the page at 0 and the last page. -/
theorem empty_range_wraps : 2 ^ 64 - 4097 + 0 * pageSize + pageSize < 2 ^ 64 ∧
    ∃ l, consideredPages (2 ^ 64 - 4097) 0 = .ok l ∧ 0 ∈ l ∧ 2 ^ 64 - pageSize ∈ l := by
  refine ⟨by decide, ?_⟩
  have hlow : 2 ^ 64 - 2 * pageSize < 2 ^ 64 - 4097 := by decide
  obtain ⟨k, hwraps⟩ := consideredPages_wraps hlow (by decide)
  refine ⟨_, hwraps, List.mem_append_left _ (mem_descend.mpr ⟨0, Nat.zero_le _, rfl⟩), ?_⟩
  exact List.mem_append_right _ (List.mem_singleton_self _)

end Tianole.Mm
