import Mathlib.Algebra.Order.Ring.Nat
import Mathlib.Logic.Function.Basic

/-! A downward-growing stack of quadwords in a 64-bit address space. All accesses are to
slots a multiple of eight bytes apart, so that slots never overlap. -/
namespace Stack

abbrev Word := BitVec 64

/-- The slots from `sp` upwards hold the listed words. -/
def Holds (mem : Word → Word) (sp : Word) (words : List Word) : Prop :=
  ∀ i (h : i < words.length), mem (sp + BitVec.ofNat 64 (8 * i)) = words.get ⟨i, h⟩

variable {mem mem' : Word → Word} {sp : Word} {words : List Word}

theorem holds_nil : Holds mem sp [] := fun _ h => absurd h (by simp)

theorem slot_ne {i : ℕ} (h : i + 1 < 2 ^ 61) : sp + BitVec.ofNat 64 (8 * i) ≠ sp - 8 := by
  intro he
  have := congrArg BitVec.toNat he
  have h8 : (8 : Word).toNat = 8 := rfl
  simp only [BitVec.toNat_add, BitVec.toNat_ofNat, BitVec.toNat_sub, h8] at this
  have hsp := sp.isLt
  omega

theorem slot_succ (i : ℕ) :
    sp - 8 + BitVec.ofNat 64 (8 * (i + 1)) = sp + BitVec.ofNat 64 (8 * i) := by
  apply BitVec.eq_of_toNat_eq
  have h8 : (8 : Word).toNat = 8 := rfl
  simp only [BitVec.toNat_add, BitVec.toNat_ofNat, BitVec.toNat_sub, h8]
  have hsp := sp.isLt
  omega

/-- A push goes below everything that is held. -/
theorem Holds.push (h : Holds mem sp words) (v : Word) (hl : words.length < 2 ^ 61) :
    Holds (Function.update mem (sp - 8) v) (sp - 8) (v :: words) := by
  intro i hi
  cases i with
  | zero => simp
  | succ i =>
    have hi' : i < words.length := by simpa using hi
    rw [slot_succ, Function.update_of_ne (slot_ne (by omega))]
    exact h i hi'

end Stack
