import Mathlib.Algebra.Order.BigOperators.Group.Finset
import Mathlib.Data.Fintype.BigOperators
import Mathlib.Data.List.Infix

/-! Radix trees whose nodes are tables of words: `next` gives the table that a word names, if
it names one. Only words that are met on the way to a table decide about it. -/
namespace Radix

variable {T I E : Type*} (next : E → Option T)

/-- The table at the end of a path. -/
def table (W : T → I → E) : T → List I → Option T
  | t, [] => some t
  | t, i :: p => (next (W t i)).bind fun t' => table W t' p

/-- Tables at depth at most `d` are reached by one path only. -/
def Tree (W : T → I → E) (root : T) (d : ℕ) : Prop :=
  ∀ p q t, p.length ≤ d → q.length ≤ d → table next W root p = some t →
    table next W root q = some t → p = q

/-- The word at the end of a path of tables, if it names anything. -/
def leaf (W : T → I → E) (root : T) (p : List I) (i : I) : Option E :=
  (table next W root p).bind fun t => if (next (W t i)).isSome then some (W t i) else none

variable {next} {W W' : T → I → E} {root t t' : T} {p q r : List I} {i j : I} {d : ℕ}

@[simp] theorem table_nil : table next W t [] = some t := rfl

theorem table_append : table next W t (p ++ q) = (table next W t p).bind fun t' => table next W t' q := by
  induction p generalizing t with
  | nil => rfl
  | cons i p ih =>
    rw [List.cons_append, table, table, Option.bind_assoc]
    exact Option.bind_congr fun _ _ => ih

theorem table_concat : table next W t (p ++ [i]) = (table next W t p).bind fun t' => next (W t' i) := by
  rw [table_append]
  refine Option.bind_congr fun t' _ => ?_
  simp [table]

/-- A path whose words are the same leads to the same table. -/
theorem table_congr (h : ∀ q₁ j q₂ t', q = q₁ ++ j :: q₂ → table next W t q₁ = some t' →
    W' t' j = W t' j) : table next W' t q = table next W t q := by
  induction q generalizing t with
  | nil => rfl
  | cons j q ih =>
    have hhead : W' t j = W t j := h [] j q t rfl rfl
    rw [table, table, hhead]
    refine Option.bind_congr fun t₁ ht₁ => ih fun q₁ k q₂ t' hq ht' => ?_
    refine h (j :: q₁) k q₂ t' (by rw [hq]; rfl) ?_
    rw [table, ht₁]
    exact ht'

/-- From a table whose words lead back to it or nowhere, there is no way to another. -/
theorem table_of_loop (h : ∀ j, next (W t j) = none ∨ next (W t j) = some t)
    (ht : table next W t q = some t') : t' = t := by
  induction q with
  | nil => exact (Option.some.inj ht).symm
  | cons j q ih =>
    rcases h j with hj | hj
    · rw [table, hj] at ht
      cases ht
    · rw [table, hj] at ht
      exact ih ht

/-- Changing one word of a table in the tree affects only the paths through that word. -/
theorem Tree.table_of_not_prefix (h : Tree next W root d) (hp : table next W root p = some t)
    (hd : p.length ≤ d) (hW : ∀ t' j, t' ≠ t ∨ j ≠ i → (∃ r, r.length ≤ d ∧
      table next W root r = some t') → W' t' j = W t' j)
    (hq : q.length ≤ d + 1) (hn : ¬ (p ++ [i]) <+: q) :
    table next W' root q = table next W root q := by
  refine table_congr fun q₁ j q₂ t' hsplit ht' => ?_
  have hlen : q₁.length ≤ d := by
    rw [hsplit, List.length_append, List.length_cons] at hq
    omega
  refine hW t' j ?_ ⟨q₁, hlen, ht'⟩
  by_contra hsame
  obtain ⟨rfl, rfl⟩ : t' = t ∧ j = i := by simpa [not_or] using hsame
  obtain rfl := h q₁ p t' hlen hd ht' hp
  exact hn ⟨q₂, by rw [hsplit]; simp⟩

section Leaf

/-- Writing a word of a table at full depth. -/
theorem Tree.set_leaf (h : Tree next W root d) (hp : table next W root p = some t)
    (hd : p.length = d) (hW : ∀ t' j, t' ≠ t ∨ j ≠ i → W' t' j = W t' j) :
    (∀ q, q.length ≤ d → table next W' root q = table next W root q) ∧ Tree next W' root d ∧
      ∀ q j, q.length = d → q ≠ p ∨ j ≠ i → leaf next W' root q j = leaf next W root q j := by
  have htable : ∀ q, q.length ≤ d → table next W' root q = table next W root q := by
    intro q hq
    refine h.table_of_not_prefix hp hd.le (fun t' j hne _ => hW t' j hne) (by omega) fun hpre => ?_
    have hlen := hpre.length_le
    rw [List.length_append, List.length_singleton] at hlen
    omega
  refine ⟨htable, fun q₁ q₂ t' h₁ h₂ ht₁ ht₂ => ?_, fun q j hq hne => ?_⟩
  · rw [htable _ h₁] at ht₁
    rw [htable _ h₂] at ht₂
    exact h q₁ q₂ t' h₁ h₂ ht₁ ht₂
  · rw [leaf, leaf, htable q hq.le]
    refine Option.bind_congr fun t' ht' => ?_
    have hword : W' t' j = W t' j := by
      refine hW t' j (hne.imp_left fun hqp htt => hqp ?_)
      exact h q p t' hq.le hd.le ht' (htt ▸ hp)
    rw [hword]

end Leaf

section Link
variable {f : T}

/-- Linking an empty table that was not in the tree. -/
structure Links (next : E → Option T) (W W' : T → I → E) (root : T) (d : ℕ) (p : List I) (i : I)
    (t f : T) : Prop where
  at_path : table next W root p = some t
  depth : p.length < d
  absent : next (W t i) = none
  fresh : ∀ q, q.length ≤ d → table next W root q ≠ some f
  same : ∀ t' j, t' ≠ t ∨ j ≠ i → t' ≠ f → W' t' j = W t' j
  link : next (W' t i) = some f
  blank : ∀ j, next (W' f j) = none

theorem Links.table_eq (hl : Links next W W' root d p i t f) (h : Tree next W root d)
    (hq : q.length ≤ d) : q = p ++ [i] ∧ table next W' root q = some f ∨
      q ≠ p ++ [i] ∧ table next W' root q = table next W root q := by
  have hsame : ∀ {r : List I}, r.length ≤ d → ¬ (p ++ [i]) <+: r →
      table next W' root r = table next W root r := fun {r} hr hn =>
    h.table_of_not_prefix hl.at_path hl.depth.le (fun t' j hne ⟨s, hs, ht'⟩ =>
      hl.same t' j hne fun he => hl.fresh s hs (he ▸ ht')) (by omega) hn
  have hpath : table next W' root p = some t := by
    rw [hsame hl.depth.le fun hpre => ?_]
    · exact hl.at_path
    · have hlen := hpre.length_le
      rw [List.length_append, List.length_singleton] at hlen
      omega
  have hnew : table next W' root (p ++ [i]) = some f := by
    rw [table_concat, hpath]
    exact hl.link
  by_cases hpre : (p ++ [i]) <+: q
  · obtain ⟨r, rfl⟩ := hpre
    cases r with
    | nil => exact .inl ⟨by simp, by simpa using hnew⟩
    | cons j r =>
      -- Below the new table there is nothing, and below its word there was nothing.
      refine .inr ⟨by simp, ?_⟩
      rw [table_append, hnew, table_append, table_concat, hl.at_path]
      simp [table, hl.blank, hl.absent]
  · refine .inr ⟨?_, hsame hq hpre⟩
    rintro rfl
    exact hpre (List.prefix_refl _)

theorem Links.tree (hl : Links next W W' root d p i t f) (h : Tree next W root d) :
    Tree next W' root d := by
  intro q₁ q₂ t' h₁ h₂ ht₁ ht₂
  rcases hl.table_eq h h₁ with ⟨rfl, hf₁⟩ | ⟨-, he₁⟩ <;>
    rcases hl.table_eq h h₂ with ⟨rfl, hf₂⟩ | ⟨-, he₂⟩
  · rfl
  · rw [hf₁] at ht₁
    rw [he₂] at ht₂
    exact absurd (ht₁ ▸ ht₂) (hl.fresh q₂ h₂)
  · rw [hf₂] at ht₂
    rw [he₁] at ht₁
    exact absurd (ht₂ ▸ ht₁) (hl.fresh q₁ h₁)
  · exact h q₁ q₂ t' h₁ h₂ (he₁ ▸ ht₁) (he₂ ▸ ht₂)

/-- The words at full depth name what they named before. -/
theorem Links.leaf_eq (hl : Links next W W' root d p i t f) (h : Tree next W root d)
    (hq : q.length = d) : leaf next W' root q j = leaf next W root q j := by
  have hd := hl.depth
  rcases hl.table_eq h hq.le with ⟨rfl, hf⟩ | ⟨-, he⟩
  · have hnone : table next W root (p ++ [i]) = none := by
      rw [table_concat, hl.at_path]
      exact hl.absent
    rw [leaf, leaf, hf, hnone]
    simp [hl.blank]
  · rw [leaf, leaf, he]
    refine Option.bind_congr fun t' ht' => ?_
    have hword : W' t' j = W t' j := by
      refine hl.same t' j (.inl ?_) ?_
      · rintro rfl
        have hqp := h q p t' hq.le hd.le ht' hl.at_path
        rw [hqp] at hq
        omega
      · rintro rfl
        exact hl.fresh q hq.le ht'
    rw [hword]

end Link

section Missing
variable {f : T}

variable (next W) in
/-- The number of tables that a path lacks. -/
def missing : T → List I → ℕ
  | _, [] => 0
  | t, i :: p => (next (W t i)).elim (p.length + 1) fun t' => missing t' p

theorem missing_append (h : table next W t p = some t') :
    missing next W t (p ++ q) = missing next W t' q := by
  induction p generalizing t with
  | nil =>
    obtain rfl := Option.some.inj h
    rfl
  | cons i p ih =>
    obtain ⟨t₁, ht₁, hrest⟩ := Option.bind_eq_some_iff.mp h
    rw [List.cons_append, missing, ht₁]
    exact ih hrest

theorem missing_of_absent (h : next (W t i) = none) :
    missing next W t (i :: p) = p.length + 1 := by
  rw [missing, h]
  rfl

theorem missing_of_blank (h : ∀ j, next (W t j) = none) : missing next W t p = p.length := by
  cases p with
  | nil => rfl
  | cons i p => exact missing_of_absent (h i)

/-- A path whose words are the same lacks as much. -/
theorem missing_congr (h : ∀ q₁ j q₂ t', q = q₁ ++ j :: q₂ → table next W t q₁ = some t' →
    W' t' j = W t' j) : missing next W' t q = missing next W t q := by
  induction q generalizing t with
  | nil => rfl
  | cons j q ih =>
    have hhead : W' t j = W t j := h [] j q t rfl rfl
    rw [missing, missing, hhead]
    cases hnext : next (W t j) with
    | none => rfl
    | some t₁ =>
      apply ih
      intro q₁ k q₂ t' hq ht'
      apply h (j :: q₁) k q₂ t' (by rw [hq]; rfl)
      rw [table, hnext]
      exact ht'

theorem missing_eq_zero_iff : missing next W t p = 0 ↔ (table next W t p).isSome = true := by
  induction p generalizing t with
  | nil => simp [missing]
  | cons i p ih => cases hnext : next (W t i) <;> simp [missing, table, hnext, ih]

/-- The new table is one that the paths through it lacked. -/
theorem Links.missing_eq (hl : Links next W W' root d p i t f) (h : Tree next W root d) :
    missing next W' root (p ++ i :: q) + 1 = missing next W root (p ++ i :: q) := by
  have hd := hl.depth
  have hnew : table next W' root (p ++ [i]) = some f := by
    rcases hl.table_eq h (q := p ++ [i]) (by simp; omega) with ⟨-, he⟩ | ⟨hne, -⟩
    · exact he
    · exact absurd rfl hne
  rw [missing_append hl.at_path, missing_of_absent hl.absent, ← List.singleton_append,
    ← List.append_assoc, missing_append hnew, missing_of_blank hl.blank]

end Missing

section Count
variable [Fintype I] [DecidableEq T]

variable (next W root d) in
/-- The tables at depth at most `d`. Unfolding it would list them. -/
@[irreducible] def tables : Finset T :=
  (Finset.range (d + 1)).biUnion fun k => Finset.univ.image fun f : Fin k → I =>
    (table next W root (List.ofFn f)).getD root

theorem mem_tables (hd : p.length ≤ d) (ht : table next W root p = some t) :
    t ∈ tables next W root d := by
  rw [tables]
  refine Finset.mem_biUnion.mpr ⟨p.length, Finset.mem_range.mpr (Nat.lt_succ_of_le hd), ?_⟩
  refine Finset.mem_image.mpr ⟨p.get, Finset.mem_univ _, ?_⟩
  rw [List.ofFn_get, ht]
  rfl

theorem card_tables_le :
    (tables next W root d).card ≤ ∑ k ∈ Finset.range (d + 1), Fintype.card I ^ k := by
  rw [tables]
  refine Finset.card_biUnion_le.trans (Finset.sum_le_sum fun k _ => ?_)
  refine Finset.card_image_le.trans ?_
  rw [Finset.card_univ, Fintype.card_fun, Fintype.card_fin]

end Count

end Radix
