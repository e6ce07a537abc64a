import Mathlib.Data.Nat.Notation
import Mathlib.Logic.Function.Basic

/-! Straight-line programs on an array: stores of given values and copies from cell to cell. -/

/-- One access to the array, or two in the case of a copy. -/
inductive Access (α : Type*) where
  | store (index : ℕ) (value : α)
  | copy (target source : ℕ)
  deriving DecidableEq

namespace Access

variable {α : Type*} {a : ℕ → α} {l l' : List (Access α)} {i : ℕ}

def apply (a : ℕ → α) : Access α → ℕ → α
  | store index value => Function.update a index value
  | copy target source => Function.update a target (a source)

/-- The cell that is written. -/
def target : Access α → ℕ
  | store index _ => index
  | copy target _ => target

/-- The cells that are read or written. -/
def indices : Access α → List ℕ
  | store index _ => [index]
  | copy target source => [target, source]

def run (a : ℕ → α) (l : List (Access α)) : ℕ → α := l.foldl apply a

theorem run_append : run a (l ++ l') = run (run a l) l' := List.foldl_append

theorem run_singleton (x : Access α) : run a [x] = x.apply a := rfl

theorem apply_of_ne {x : Access α} (h : i ≠ x.target) : x.apply a i = a i := by
  cases x with
  | store index value => exact Function.update_of_ne h ..
  | copy target source => exact Function.update_of_ne h ..

/-- A cell that no access writes keeps its value. -/
theorem run_of_forall_ne (h : ∀ x ∈ l, i ≠ x.target) : run a l i = a i := by
  induction l generalizing a with
  | nil => rfl
  | cons x l ih =>
    have hrest : run (x.apply a) l i = x.apply a i := ih fun y hy => h y (by simp [hy])
    exact hrest.trans (apply_of_ne (h x (by simp)))

/-- Stores of one value set the cells they name. -/
theorem run_stores {value : α} (h : ∀ x ∈ l, ∃ index, x = store index value)
    (hi : ∃ x ∈ l, x.target = i) : run a l i = value := by
  induction l generalizing a with
  | nil => simp at hi
  | cons x l ih =>
    obtain ⟨index, rfl⟩ := h x (by simp)
    have hl : ∀ x ∈ l, ∃ index, x = store index value := fun y hy => h y (by simp [hy])
    by_cases hlater : ∃ y ∈ l, y.target = i
    · exact ih hl hlater
    · have hkeep : run (apply a (store index value)) l i = apply a (store index value) i :=
        run_of_forall_ne fun y hy he => hlater ⟨y, hy, he.symm⟩
      obtain ⟨y, hy, htarget⟩ := hi
      rcases List.mem_cons.mp hy with rfl | hy
      · obtain rfl : index = i := htarget
        exact hkeep.trans (Function.update_self ..)
      · exact absurd ⟨y, hy, htarget⟩ hlater

/-- Copies between two families of cells, none of which is both read and written. -/
theorem run_copies {n : ℕ} {target source : ℕ → ℕ}
    (hinj : ∀ x < n, ∀ y < n, target x = target y → x = y)
    (hsep : ∀ x < n, ∀ y < n, source x ≠ target y) {x : ℕ} (hx : x < n) :
    run a ((List.range n).map fun x => copy (target x) (source x)) (target x) = a (source x) := by
  induction n with
  | zero => omega
  | succ n ih =>
    rw [List.range_succ, List.map_append, List.map_singleton, run_append, run_singleton]
    by_cases hlast : x = n
    · subst hlast
      -- The last source was not written before.
      refine (Function.update_self ..).trans (run_of_forall_ne ?_)
      simp only [List.mem_map, List.mem_range, forall_exists_index, and_imp,
        forall_apply_eq_imp_iff₂]
      exact fun y hy => hsep x hx y (by omega)
    · have hne : target x ≠ target n := fun h => hlast (hinj x hx n (by omega) h)
      rw [apply_of_ne hne]
      exact ih (fun x hx y hy => hinj x (by omega) y (by omega))
        (fun x hx y hy => hsep x (by omega) y (by omega)) (by omega)

/-- A copy towards lower addresses, cell by cell in ascending order. -/
def copyRow (target source n : ℕ) : List (Access α) :=
  (List.range n).map fun x => copy (target + x) (source + x)

theorem run_copyRow {target source n : ℕ} (h : target ≤ source) :
    run a (copyRow target source n) i =
      if target ≤ i ∧ i < target + n then a (source + (i - target)) else a i := by
  induction n generalizing i with
  | zero => rw [if_neg (by omega)]; rfl
  | succ n ih =>
    rw [copyRow, List.range_succ, List.map_append, List.map_singleton, run_append, run_singleton]
    by_cases hi : i = target + n
    · -- The source lies above everything that was written before.
      have hsource : ¬(target ≤ source + n ∧ source + n < target + n) := by omega
      rw [if_pos (by omega), hi, Nat.add_sub_cancel_left]
      refine (Function.update_self ..).trans ?_
      rw [← copyRow, ih, if_neg hsource]
    · rw [apply_of_ne hi, ← copyRow, ih]
      by_cases hin : target ≤ i ∧ i < target + n
      · rw [if_pos hin, if_pos (by omega)]
      · rw [if_neg hin, if_neg (by omega)]

/-- The first `n` rows of width `width`, each copied from the row `shift` rows further on. -/
def copyRows (stride width shift n : ℕ) : List (Access α) :=
  (List.range n).flatMap fun y => copyRow (y * stride) ((y + shift) * stride) width

theorem run_copyRows {stride width shift n : ℕ} (hwidth : width ≤ stride) {x y : ℕ}
    (hx : x < stride) :
    run a (copyRows stride width shift n) (y * stride + x) =
      if y < n ∧ x < width then a ((y + shift) * stride + x) else a (y * stride + x) := by
  induction n generalizing x y with
  | zero => rw [if_neg (by omega)]; rfl
  | succ n ih =>
    have hmono (u v : ℕ) (h : u ≤ v) : u * stride ≤ v * stride := Nat.mul_le_mul_right _ h
    have hsucc (u : ℕ) : (u + 1) * stride = u * stride + stride := Nat.succ_mul u stride
    rw [copyRows, List.range_succ, List.flatMap_append, List.flatMap_singleton, run_append,
      run_copyRow (hmono _ _ (Nat.le_add_right n shift)), ← copyRows]
    by_cases hrow : y = n ∧ x < width
    · obtain ⟨rfl, hx'⟩ := hrow
      rw [if_pos (by omega), if_pos ⟨by omega, hx'⟩, Nat.add_sub_cancel_left, ih hx,
        if_neg (by omega)]
    · have hout : ¬(n * stride ≤ y * stride + x ∧ y * stride + x < n * stride + width) := by
        rintro ⟨hle, hlt⟩
        rcases Nat.lt_trichotomy y n with h | h | h
        · have := hmono (y + 1) n h
          have := hsucc y
          omega
        · subst h
          omega
        · have := hmono (n + 1) y h
          have := hsucc n
          omega
      rw [if_neg hout, ih hx]
      by_cases hin : y < n ∧ x < width
      · rw [if_pos hin, if_pos (by omega)]
      · rw [if_neg hin, if_neg (by omega)]

end Access
