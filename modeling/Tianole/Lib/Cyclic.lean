import Mathlib.Data.List.Nodup
import Mathlib.Data.List.TakeWhile

/-! Round-robin order over a list. `turn l c` is the order in which a search meets the
elements when it starts behind `c` and wraps around, and `ahead l c t` is what it meets
before `t`. -/
namespace Cyclic

variable {α : Type*} {l A B : List α} {c : Option α} {t u x : α}

/-- A list without repetition falls apart at each of its elements. -/
theorem split_of_mem (hn : l.Nodup) (hu : u ∈ l) : ∃ A B, l = A ++ u :: B ∧ u ∉ A := by
  obtain ⟨A, B, rfl⟩ := List.append_of_mem hu
  exact ⟨A, B, rfl, fun hm => (List.nodup_append.mp hn).2.2 u hm u (by simp) rfl⟩

variable [DecidableEq α]

/-- The cyclic order that starts just behind `c` and ends with it. -/
def turn (l : List α) : Option α → List α
  | none => l
  | some c => (l.dropWhile (· ≠ c)).tail ++ (l.takeWhile (· ≠ c) ++ [c])

theorem turn_split (h : u ∉ A) : turn (A ++ u :: B) (some u) = B ++ (A ++ [u]) := by
  have hp : ∀ x ∈ A, decide (x ≠ u) = true := by
    intro x hx
    simpa using fun he : x = u => h (he ▸ hx)
  rw [turn, List.dropWhile_append_of_pos hp, List.takeWhile_append_of_pos hp]
  simp

theorem turn_perm (hn : l.Nodup) (hc : ∀ u, c = some u → u ∈ l) : (turn l c).Perm l := by
  cases c with
  | none => exact .refl l
  | some u =>
    obtain ⟨A, B, rfl, hu⟩ := split_of_mem hn (hc u rfl)
    rw [turn_split hu, List.append_cons A u B]
    exact List.perm_append_comm

/-- Going on from an element of the order leads to the rest, then to what was passed. -/
theorem turn_turn (hn : l.Nodup) (hc : ∀ u, c = some u → u ∈ l) (h : turn l c = A ++ u :: B) :
    turn l (some u) = B ++ (A ++ [u]) := by
  have hsplit {A B : List α} (hl : l = A ++ u :: B) : turn l (some u) = B ++ (A ++ [u]) := by
    rw [hl]
    rw [hl] at hn
    exact turn_split fun hm => (List.nodup_append.mp hn).2.2 u hm u (by simp) rfl
  cases c with
  | none => exact hsplit h
  | some d =>
    obtain ⟨C, D, hl, hd⟩ := split_of_mem hn (hc d rfl)
    rw [hl, turn_split hd] at h
    rcases List.append_eq_append_iff.mp h with ⟨X, rfl, hX⟩ | ⟨X, rfl, hX⟩
    · -- The element comes after the wrap-around, or is the last one.
      rcases List.append_eq_append_iff.mp hX with ⟨Y, rfl, hY⟩ | ⟨Y, rfl, hY⟩
      · cases Y with
        | nil =>
          obtain ⟨rfl, rfl⟩ := List.cons.inj hY
          rw [hsplit hl]
          simp
        | cons y Y => simp at hY
      · cases Y with
        | nil =>
          obtain ⟨rfl, rfl⟩ := List.cons.inj hY
          rw [hsplit hl]
          simp
        | cons y Y =>
          obtain ⟨rfl, rfl⟩ := List.cons.inj hY
          rw [hsplit (A := X) (B := Y ++ d :: D) (by rw [hl]; simp)]
          simp
    · -- The element comes before the wrap-around.
      cases X with
      | nil =>
        rw [List.nil_append] at hX
        rw [List.append_nil] at hl
        rcases List.cons_eq_append_iff.mp hX with ⟨rfl, hY⟩ | ⟨Y, rfl, rfl⟩
        · obtain ⟨rfl, rfl⟩ := List.cons.inj hY
          rw [hsplit hl]
          simp
        · rw [hsplit (A := []) (B := Y ++ d :: A) (by rw [hl]; simp)]
          simp
      | cons y X =>
        obtain ⟨rfl, rfl⟩ := List.cons.inj hX
        rw [hsplit (A := C ++ d :: A) (B := X) (by rw [hl]; simp)]
        simp

theorem turn_filter {p : α → Bool} (hn : l.Nodup) (hc : ∀ u, c = some u → u ∈ l ∧ p u = true) :
    turn (l.filter p) c = (turn l c).filter p := by
  cases c with
  | none => rfl
  | some u =>
    obtain ⟨hu, hp⟩ := hc u rfl
    obtain ⟨A, B, rfl, hA⟩ := split_of_mem hn hu
    rw [List.filter_append, List.filter_cons_of_pos hp,
      turn_split fun hm => hA (List.mem_filter.mp hm).1, turn_split hA]
    simp [hp]

/-- What the search meets before `t`. -/
def ahead (l : List α) (c : Option α) (t : α) : List α := (turn l c).takeWhile (· ≠ t)

theorem takeWhile_append_of_mem (ht : t ∈ A) :
    (A ++ B).takeWhile (· ≠ t) = A.takeWhile (· ≠ t) := by
  induction A with
  | nil => simp at ht
  | cons a A ih =>
    by_cases ha : a = t
    · simp [ha]
    · have ht' : t ∈ A := by simpa [Ne.symm ha] using ht
      rw [List.cons_append, List.takeWhile_cons_of_pos (by simpa using ha),
        List.takeWhile_cons_of_pos (by simpa using ha), ih ht']

theorem mem_takeWhile_of_filter {p : α → Bool} (ht : p t = true)
    (hx : x ∈ (l.filter p).takeWhile (· ≠ t)) : x ∈ l.takeWhile (· ≠ t) := by
  induction l with
  | nil => exact hx
  | cons a l ih =>
    by_cases ha : a = t
    · subst ha
      simp [ht] at hx
    · rw [List.takeWhile_cons_of_pos (by simpa using ha)]
      cases hp : p a with
      | false =>
        rw [List.filter_cons_of_neg (by simp [hp])] at hx
        exact List.mem_cons_of_mem _ (ih hx)
      | true =>
        rw [List.filter_cons_of_pos hp, List.takeWhile_cons_of_pos (by simpa using ha)] at hx
        rcases List.mem_cons.mp hx with rfl | hx
        · simp
        · exact List.mem_cons_of_mem _ (ih hx)

theorem mem_takeWhile_of_insert (hx : x ∈ (A ++ u :: B).takeWhile (· ≠ t)) :
    x ∈ (A ++ B).takeWhile (· ≠ t) ∨ x = u := by
  induction A with
  | nil =>
    by_cases hu : u = t
    · subst hu
      simp at hx
    · rw [List.nil_append, List.takeWhile_cons_of_pos (by simpa using hu)] at hx
      rcases List.mem_cons.mp hx with rfl | hx
      · exact .inr rfl
      · exact .inl hx
  | cons a A ih =>
    by_cases ha : a = t
    · subst ha
      simp at hx
    · rw [List.cons_append, List.takeWhile_cons_of_pos (by simpa using ha)] at hx ⊢
      rcases List.mem_cons.mp hx with rfl | hx
      · exact .inl (by simp)
      · exact (ih hx).imp_left (List.mem_cons_of_mem _)

/-- Removing elements puts nobody ahead. -/
theorem ahead_filter {p : α → Bool} (hn : l.Nodup) (hc : ∀ u, c = some u → u ∈ l ∧ p u = true)
    (ht : p t = true) (hx : x ∈ ahead (l.filter p) c t) : x ∈ ahead l c t := by
  rw [ahead, turn_filter hn hc] at hx
  exact mem_takeWhile_of_filter ht hx

/-- Only the new element can get ahead when one is appended. -/
theorem ahead_concat (hn : (l ++ [u]).Nodup) (hc : ∀ u, c = some u → u ∈ l)
    (hx : x ∈ ahead (l ++ [u]) c t) : x ∈ ahead l c t ∨ x = u := by
  cases c with
  | none =>
    have h := mem_takeWhile_of_insert (A := l) (B := []) hx
    rwa [List.append_nil] at h
  | some d =>
    obtain ⟨A, B, rfl, hd⟩ := split_of_mem (List.nodup_append.mp hn).1 (hc d rfl)
    have hl : A ++ d :: B ++ [u] = A ++ d :: (B ++ [u]) := by simp
    rw [ahead, hl, turn_split hd, List.append_assoc, List.singleton_append] at hx
    rw [ahead, turn_split hd]
    exact mem_takeWhile_of_insert hx

/-- The search stops at `t` or at an element ahead of it. From there on only elements remain
ahead of `t` that were so before, and not the one at which it stopped. -/
theorem ahead_find {p : α → Bool} (hn : l.Nodup) (hc : ∀ u, c = some u → u ∈ l) (ht : t ∈ l)
    (hp : p t = true) (hu : (turn l c).find? p = some u) (hne : u ≠ t) :
    u ∈ ahead l c t ∧ ∀ x ∈ ahead l (some u) t, x ∈ ahead l c t ∧ x ≠ u := by
  obtain ⟨-, A, B, hl, hA⟩ := List.find?_eq_some_iff_append.mp hu
  have htA : t ∉ A := fun hm => by simpa [hp] using hA t hm
  have htB : t ∈ B := by
    have hm := (turn_perm hn hc).mem_iff.mpr ht
    rw [hl] at hm
    simpa [htA, Ne.symm hne] using hm
  have hahead : ahead l c t = A ++ u :: B.takeWhile (· ≠ t) := by
    rw [ahead, hl, List.takeWhile_append_of_pos, List.takeWhile_cons_of_pos (by simpa using hne)]
    intro x hx
    simpa using fun he : x = t => htA (he ▸ hx)
  have huB : u ∉ B := by
    have hnt := (turn_perm hn hc).nodup_iff.mpr hn
    rw [hl] at hnt
    exact (List.nodup_cons.mp (List.nodup_append.mp hnt).2.1).1
  have hrest : ahead l (some u) t = B.takeWhile (· ≠ t) := by
    rw [ahead, turn_turn hn hc hl, takeWhile_append_of_mem htB]
  refine ⟨by simp [hahead], fun x hx => ?_⟩
  rw [hrest] at hx
  refine ⟨by rw [hahead]; simp only [List.mem_append, List.mem_cons]; exact .inr (.inr hx), ?_⟩
  rintro rfl
  exact huB (List.takeWhile_subset _ hx)

end Cyclic
