import Mathlib.Data.List.Nodup
import Mathlib.Logic.Function.Basic

/-! Singly linked lists held together by a link function. `Path next p l q` says that
following `next` from the pointer `p` visits exactly the nodes of `l` and arrives at `q`. -/
namespace Links

variable {α : Type*}

def Path (next : α → Option α) : Option α → List α → Option α → Prop
  | p, [], q => p = q
  | p, a :: l, q => p = some a ∧ Path next (next a) l q

@[simp] theorem path_nil {next : α → Option α} {p q : Option α} :
    Path next p [] q ↔ p = q := Iff.rfl

@[simp] theorem path_cons {next : α → Option α} {p q : Option α} {a : α} {l : List α} :
    Path next p (a :: l) q ↔ p = some a ∧ Path next (next a) l q := Iff.rfl

instance decidablePath [DecidableEq α] (next : α → Option α) (q : Option α) :
    (p : Option α) → (l : List α) → Decidable (Path next p l q)
  | p, [] => inferInstanceAs (Decidable (p = q))
  | p, a :: l =>
      have := decidablePath next q (next a) l
      inferInstanceAs (Decidable (p = some a ∧ Path next (next a) l q))

theorem path_append {next : α → Option α} {p q : Option α} {l₁ l₂ : List α} :
    Path next p (l₁ ++ l₂) q ↔ ∃ r, Path next p l₁ r ∧ Path next r l₂ q := by
  induction l₁ generalizing p with
  | nil => simp
  | cons a l₁ ih => simp [ih, and_assoc]

/-- Links of nodes outside the list do not matter. -/
theorem path_congr {next next' : α → Option α} {p q : Option α} {l : List α}
    (h : ∀ a ∈ l, next' a = next a) : Path next' p l q ↔ Path next p l q := by
  induction l generalizing p with
  | nil => rfl
  | cons a l ih =>
    rw [path_cons, path_cons, h a (by simp), ih (fun b hb => h b (by simp [hb]))]

theorem path_update {next : α → Option α} [DecidableEq α] {p q r : Option α} {l : List α}
    {a : α} (h : a ∉ l) : Path (Function.update next a r) p l q ↔ Path next p l q :=
  path_congr fun b hb => Function.update_of_ne (by rintro rfl; exact h hb) _ _

/-- A terminated list is determined by its first pointer. -/
theorem path_unique {next : α → Option α} {p : Option α} {l l' : List α}
    (h : Path next p l none) (h' : Path next p l' none) : l = l' := by
  induction l generalizing p l' with
  | nil =>
    cases l' with
    | nil => rfl
    | cons b l' => simp_all
  | cons a l ih =>
    cases l' with
    | nil => simp_all
    | cons b l' =>
      obtain ⟨rfl, ht⟩ := h
      obtain ⟨hb, ht'⟩ := h'
      obtain rfl := Option.some.inj hb
      rw [ih ht ht']

/-- A terminated list visits no node twice: two visits would continue alike for ever. -/
theorem path_nodup {next : α → Option α} {p : Option α} {l : List α}
    (h : Path next p l none) : l.Nodup := by
  induction l generalizing p with
  | nil => exact List.nodup_nil
  | cons a l ih =>
    obtain ⟨-, ht⟩ := h
    refine List.nodup_cons.mpr ⟨fun ha => ?_, ih ht⟩
    obtain ⟨l₁, l₂, rfl⟩ := List.append_of_mem ha
    obtain ⟨r, -, hr, h₂⟩ := path_append.mp ht
    have hlen := congrArg List.length (path_unique ht h₂)
    simp at hlen
    omega

theorem path_head {next : α → Option α} {p : Option α} {l : List α}
    (h : Path next p l none) : p = l.head? := by
  cases l with
  | nil => exact h
  | cons a l => exact h.1

/-- The link of a listed node leads to the rest of the list. -/
theorem path_next {next : α → Option α} {p : Option α} {l₁ l₂ : List α} {a : α}
    (h : Path next p (l₁ ++ a :: l₂) none) : Path next (next a) l₂ none := by
  obtain ⟨r, -, -, h₂⟩ := path_append.mp h
  exact h₂

section Update
variable [DecidableEq α]

/-- Appending a node after the last one. -/
theorem path_concat {next : α → Option α} {p : Option α} {l : List α} {a b : α}
    (h : Path next p (l ++ [b]) none) (ha : a ∉ l ++ [b]) :
    Path (Function.update (Function.update next a none) b (some a)) p (l ++ [b] ++ [a]) none := by
  have hb : b ∉ l := fun hb => (List.nodup_append.mp (path_nodup h)).2.2 b hb b (by simp) rfl
  have hab : a ≠ b := fun he => ha (by simp [he])
  have hal : a ∉ l := fun hm => ha (by simp [hm])
  obtain ⟨r, h₁, rfl, -⟩ := path_append.mp h
  rw [List.append_assoc, path_append]
  refine ⟨some b, (path_update hb).mpr ((path_update hal).mpr h₁), rfl, ?_⟩
  simp [hab]

/-- Unlinking a node that has a predecessor. -/
theorem path_unlink {next : α → Option α} {p : Option α} {l₁ l₂ : List α} {a b : α}
    (h : Path next p (l₁ ++ b :: a :: l₂) none) :
    Path (Function.update next b (next a)) p (l₁ ++ b :: l₂) none := by
  have hn := path_nodup h
  have hb₁ : b ∉ l₁ := fun hb => (List.nodup_append.mp hn).2.2 b hb b (by simp) rfl
  have hb₂ : b ∉ l₂ := by
    have := (List.nodup_append.mp hn).2.1
    simp_all
  obtain ⟨r, h₁, rfl, ha⟩ := path_append.mp h
  refine path_append.mpr ⟨some b, (path_update hb₁).mpr h₁, rfl, ?_⟩
  rw [Function.update_self]
  exact (path_update hb₂).mpr ha.2

end Update

/-- The last node after the removal of `a`, whose predecessor is the last node of `l₁`. -/
theorem getLast_unlink [DecidableEq α] {a : α} {l₁ l₂ : List α} (hn : (l₁ ++ a :: l₂).Nodup) :
    (if (l₁ ++ a :: l₂).getLast? = some a then l₁.getLast? else (l₁ ++ a :: l₂).getLast?) =
      (l₁ ++ l₂).getLast? := by
  cases l₂ with
  | nil => simp
  | cons y l₂ =>
    have hlast : (l₁ ++ a :: y :: l₂).getLast? = (l₁ ++ y :: l₂).getLast? := by simp
    rw [hlast, if_neg]
    intro he
    obtain ⟨-, hn₂, hdisj⟩ := List.nodup_append.mp hn
    rcases List.mem_append.mp (List.mem_of_getLast? he) with hm | hm
    · exact hdisj a hm a (by simp) rfl
    · exact (List.nodup_cons.mp hn₂).1 hm

/-- A sublist of a list without repetition is what is left of it. -/
theorem filter_mem_of_sublist [DecidableEq α] {l l' : List α} (hn : l.Nodup)
    (h : l'.Sublist l) : l.filter (fun a => decide (a ∈ l')) = l' := by
  induction h with
  | slnil => rfl
  | cons a h ih =>
    obtain ⟨ha, hn⟩ := List.nodup_cons.mp hn
    rw [List.filter_cons_of_neg (by simpa using fun hm => ha (h.subset hm)), ih hn]
  | cons_cons a h ih =>
    obtain ⟨ha, hn⟩ := List.nodup_cons.mp hn
    rw [List.filter_cons_of_pos (by simp)]
    refine congrArg _ (Eq.trans (List.filter_congr fun b hb => ?_) (ih hn))
    have hne : b ≠ a := by rintro rfl; exact ha hb
    simp [hne]

end Links
