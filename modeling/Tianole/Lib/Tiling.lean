import Mathlib.Algebra.Order.Ring.Nat
import Mathlib.Data.List.Pairwise

/-! Lists of pieces that cover an interval without gaps. A piece `b` stands for the numbers
from `lo b` up to `hi b`. -/
namespace Tiling

variable {α : Type*} (lo hi : α → ℕ)

/-- The pieces cover the numbers from `s` up to `e` in order. -/
def Tiles (s : ℕ) : List α → ℕ → Prop
  | [], e => s = e
  | b :: l, e => lo b = s ∧ lo b ≤ hi b ∧ Tiles (hi b) l e

variable {lo hi} {l l₁ l₂ : List α} {s e : ℕ} {b c : α}

@[simp] theorem tiles_nil : Tiles lo hi s [] e ↔ s = e := .rfl

@[simp] theorem tiles_cons :
    Tiles lo hi s (b :: l) e ↔ lo b = s ∧ lo b ≤ hi b ∧ Tiles lo hi (hi b) l e := .rfl

theorem tiles_append :
    Tiles lo hi s (l₁ ++ l₂) e ↔ ∃ t, Tiles lo hi s l₁ t ∧ Tiles lo hi t l₂ e := by
  induction l₁ generalizing s with
  | nil => simp
  | cons b l ih =>
    rw [List.cons_append, tiles_cons, ih]
    simp only [tiles_cons]
    constructor
    · rintro ⟨hs, hb, t, ht, ht'⟩
      exact ⟨t, ⟨hs, hb, ht⟩, ht'⟩
    · rintro ⟨t, ⟨hs, hb, ht⟩, ht'⟩
      exact ⟨hs, hb, t, ht, ht'⟩

theorem Tiles.le (h : Tiles lo hi s l e) : s ≤ e := by
  induction l generalizing s with
  | nil => exact h.le
  | cons b l ih =>
    obtain ⟨hs, hb, hl⟩ := h
    have hle := ih hl
    omega

theorem Tiles.bounds (h : Tiles lo hi s l e) (hb : b ∈ l) : s ≤ lo b ∧ lo b ≤ hi b ∧ hi b ≤ e := by
  induction l generalizing s with
  | nil => cases hb
  | cons c l ih =>
    obtain ⟨hs, hc, hl⟩ := h
    rcases List.mem_cons.mp hb with rfl | hb
    · exact ⟨hs.ge, hc, hl.le⟩
    · have hbounds := ih hl hb
      omega

theorem Tiles.length_le (h : Tiles lo hi s l e) (hl : ∀ b ∈ l, lo b < hi b) : l.length ≤ e - s := by
  induction l generalizing s with
  | nil => simp
  | cons b l ih =>
    obtain ⟨hs, -, ht⟩ := h
    have htail := ih ht fun c hc => hl c (by simp [hc])
    have hhead := hl b (by simp)
    have hle := ht.le
    rw [List.length_cons]
    omega

/-- The parts come one after the other. -/
theorem Tiles.pairwise (h : Tiles lo hi s l e) : l.Pairwise fun b c => hi b ≤ lo c := by
  induction l generalizing s with
  | nil => exact .nil
  | cons b l ih =>
    obtain ⟨-, -, hl⟩ := h
    exact .cons (fun c hc => (hl.bounds hc).1) (ih hl)

theorem Tiles.unique {e' : ℕ} (h : Tiles lo hi s l e) (h' : Tiles lo hi s l e') : e = e' := by
  induction l generalizing s with
  | nil => exact h.symm.trans h'
  | cons b l ih => exact ih h.2.2 h'.2.2

end Tiling
