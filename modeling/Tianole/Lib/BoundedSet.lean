import Mathlib.Data.Set.Card

/-! A set kept in an array of fixed capacity. An element is added at the end unless it is there
already; a new one for which there is no room is an error. -/
namespace BoundedSet

variable {α ε : Type*}

/-- Adding the elements of nested lists. -/
theorem foldlM_flatMap {β γ : Type*} (f : β → List α) (add : γ → α → Except ε γ) (l : List β)
    (c : γ) : (l.flatMap f).foldlM add c = l.foldlM (fun c b => (f b).foldlM add c) c := by
  induction l generalizing c with
  | nil => rfl
  | cons b l ih =>
    rw [List.flatMap_cons, List.foldlM_append, List.foldlM_cons]
    exact bind_congr fun c => ih c

theorem encard_mem_of_nodup {l : List α} (h : l.Nodup) : {x | x ∈ l}.encard = l.length := by
  classical
  rw [← List.coe_toFinset, Set.encard_coe_eq_coe_finsetCard, List.toFinset_card_of_nodup h]

variable {capacity : ℕ} {full : ε}

/-- What adding the elements of `xs` to `l` comes to: the union without repetition, or an error
when it has more elements than there are places. -/
inductive Outcome (capacity : ℕ) (full : ε) (l xs : List α) : Except ε (List α) → Prop
  | stored {l' : List α} : l'.Nodup → l'.length ≤ capacity → (∀ x, x ∈ l' ↔ x ∈ l ∨ x ∈ xs) →
      Outcome capacity full l xs (.ok l')
  | full {l' : List α} : l'.Nodup → capacity < l'.length → (∀ x ∈ l', x ∈ l ∨ x ∈ xs) →
      Outcome capacity full l xs (.error full)

theorem Outcome.congr {l₁ xs₁ l₂ xs₂ : List α} {r : Except ε (List α)}
    (h : Outcome capacity full l₁ xs₁ r) (hmem : ∀ x, x ∈ l₁ ∨ x ∈ xs₁ ↔ x ∈ l₂ ∨ x ∈ xs₂) :
    Outcome capacity full l₂ xs₂ r := by
  cases h with
  | stored hn hle hl => exact .stored hn hle fun x => (hl x).trans (hmem x)
  | full hn hlt hl => exact .full hn hlt fun x hx => (hmem x).mp (hl x hx)

/-- From an empty array: the elements are stored exactly if they fit. -/
theorem Outcome.error_iff {xs : List α} {r : Except ε (List α)}
    (h : Outcome capacity full [] xs r) (e : ε) :
    r = .error e ↔ e = full ∧ (capacity : ℕ∞) < {x | x ∈ xs}.encard := by
  cases h with
  | @stored l' hn hle hl =>
    have hset : {x | x ∈ xs} = {x | x ∈ l'} := by
      ext x
      simpa using (hl x).symm
    rw [hset, encard_mem_of_nodup hn]
    constructor
    · intro h
      cases h
    · rintro ⟨-, hlt⟩
      exact absurd (Nat.cast_lt.mp hlt) (Nat.not_lt.mpr hle)
  | @full l' hn hlt hl =>
    have hsub : {x | x ∈ l'} ⊆ {x | x ∈ xs} := fun x hx => by simpa using hl x hx
    have hcard := Set.encard_le_encard hsub
    rw [encard_mem_of_nodup hn] at hcard
    constructor
    · intro h
      exact ⟨(Except.error.inj h).symm, lt_of_lt_of_le (Nat.cast_lt.mpr hlt) hcard⟩
    · rintro ⟨rfl, -⟩
      rfl

variable [DecidableEq α] {l : List α}

def add (capacity : ℕ) (full : ε) (l : List α) (x : α) : Except ε (List α) :=
  if x ∈ l then .ok l else if capacity ≤ l.length then .error full else .ok (l ++ [x])

theorem foldlM_add (hn : l.Nodup) (hle : l.length ≤ capacity) (xs : List α) :
    Outcome capacity full l xs (xs.foldlM (add capacity full) l) := by
  induction xs generalizing l with
  | nil => exact .stored hn hle fun x => by simp
  | cons x xs ih =>
    rw [List.foldlM_cons, add]
    by_cases hx : x ∈ l
    · rw [if_pos hx]
      refine (ih hn hle).congr fun y => ?_
      rw [List.mem_cons]
      constructor
      · exact Or.imp_right .inr
      · rintro (hy | rfl | hy)
        · exact .inl hy
        · exact .inl hx
        · exact .inr hy
    · have hn' : (l ++ [x]).Nodup := by
        rw [← List.concat_eq_append]
        exact hn.concat hx
      have hlength : (l ++ [x]).length = l.length + 1 := List.length_append
      rw [if_neg hx]
      split
      next hroom =>
        refine .full hn' (by omega) fun y hy => ?_
        rw [List.mem_cons]
        rcases List.mem_append.mp hy with hy | hy
        · exact .inl hy
        · exact .inr (.inl (List.mem_singleton.mp hy))
      next hroom =>
        refine (ih hn' (by omega)).congr fun y => ?_
        rw [List.mem_append, List.mem_singleton, List.mem_cons, or_assoc]

end BoundedSet
