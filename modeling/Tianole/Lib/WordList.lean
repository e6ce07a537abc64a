import Tianole.Lib.Links
import Tianole.Lib.Memory

/-! Singly linked lists in memory: the first word of a node is the address of the next one,
and address 0 ends the list. -/
namespace WordList
open Links Memory

/-- A pointer, unless it is null. -/
def ptr (a : ℕ) : Option ℕ := if a = 0 then none else some a

/-- The list from `head` on visits the nodes `l`. -/
structure Holds (m : Mem) (head : ℕ) (l : List ℕ) : Prop where
  path : Path (fun p => ptr (load m p 8)) (ptr head) l none

variable {m m' : Mem} {head p : ℕ} {l : List ℕ}

theorem ptr_of_ne (h : p ≠ 0) : ptr p = some p := if_neg h

theorem holds_null : Holds m 0 [] := ⟨rfl⟩

theorem Holds.nodup (h : Holds m head l) : l.Nodup := path_nodup h.path

/-- Only the words of the nodes matter. -/
theorem Holds.congr (h : Holds m head l)
    (hm : ∀ p ∈ l, ∀ x, p ≤ x → x < p + 8 → m' x = m x) : Holds m' head l := by
  refine ⟨(path_congr fun p hp => ?_).mpr h.path⟩
  rw [load_congr (hm p hp)]

theorem Holds.push (h : Holds m head l) (hp : p ≠ 0) (hhead : head < 2 ^ 64)
    (hl : ∀ q ∈ l, q + 8 ≤ p ∨ p + 8 ≤ q) : Holds (store m p 8 head) p (p :: l) := by
  have hrest : Holds (store m p 8 head) head l := by
    refine h.congr fun q hq x hx hx' => store_of_outside ?_
    have hapart := hl q hq
    omega
  have hnext : load (store m p 8 head) p 8 = head := load_store_of_lt (by simpa using hhead)
  refine ⟨ptr_of_ne hp, ?_⟩
  simp only [hnext]
  exact hrest.path

/-- A list is empty, or starts at its head. -/
theorem Holds.cases (h : Holds m head l) :
    head = 0 ∧ l = [] ∨ head ≠ 0 ∧ ∃ rest, l = head :: rest ∧ Holds m (load m head 8) rest := by
  by_cases hhead : head = 0
  · refine .inl ⟨hhead, ?_⟩
    rw [hhead] at h
    cases l with
    | nil => rfl
    | cons p l => exact absurd h.path.1 (by simp [ptr])
  · refine .inr ⟨hhead, ?_⟩
    obtain ⟨hpath⟩ := h
    rw [ptr_of_ne hhead] at hpath
    cases l with
    | nil => cases hpath
    | cons p l =>
      obtain ⟨he, hl⟩ := hpath
      obtain rfl := Option.some.inj he
      exact ⟨l, rfl, ⟨hl⟩⟩

/-- No node is null. -/
theorem Holds.ne_zero (h : Holds m head l) (hp : p ∈ l) : p ≠ 0 := by
  induction l generalizing head with
  | nil => cases hp
  | cons q l ih =>
    rcases h.cases with ⟨-, hnil⟩ | ⟨hne, rest, hl, hrest⟩
    · cases hnil
    · obtain ⟨rfl, rfl⟩ := List.cons.inj hl
      rcases List.mem_cons.mp hp with rfl | hp
      · exact hne
      · exact ih hrest hp

end WordList
