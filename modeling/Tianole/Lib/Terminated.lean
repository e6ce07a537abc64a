import Mathlib.Data.List.Basic

/-! Sequences that end with a terminator, as strings in C do. A pointer into one is the list of what
lies behind it, up to the end of the memory it may read; a scan that reaches this end has read
outside. -/
namespace Terminated

variable {α : Type*}

/-- The position of the first element outside of `p`. -/
def skip (p : α → Bool) : List α → Option (List α)
  | [] => none
  | a :: l => if p a then skip p l else some (a :: l)

theorem skip_append {p : α → Bool} {stop : α} (hp : p stop = false) (l rest : List α) :
    skip p (l ++ stop :: rest) = some (l.dropWhile p ++ stop :: rest) := by
  induction l with
  | nil => simp [skip, hp]
  | cons a l ih =>
    rw [List.cons_append, skip, List.dropWhile_cons]
    split
    · exact ih
    · rfl

variable [DecidableEq α] {stop : α}

/-- The elements before the terminator; `none` when there is no terminator. -/
def text (stop : α) : List α → Option (List α)
  | [] => none
  | a :: l => if a = stop then some [] else (text stop l).map (a :: ·)

/-- Comparison with a terminated sequence, element by element up to the end of one of them. -/
def same (stop : α) : List α → List α → Option Bool
  | a :: l, b :: m =>
      if a ≠ stop ∧ b ≠ stop then if a ≠ b then some false else same stop l m
      else some (decide (a = stop ∧ b = stop))
  | _, _ => none

/-- Whether a sequence starts with the elements of the first one before its terminator. -/
def starts (stop : α) : List α → List α → Option Bool
  | b :: m, l =>
      if b = stop then some true
      else match l with
        | a :: l => if a ≠ b then some false else starts stop m l
        | [] => none
  | [], _ => none

theorem text_append {l : List α} (h : stop ∉ l) (rest : List α) :
    text stop (l ++ stop :: rest) = some l := by
  induction l with
  | nil => simp [text]
  | cons a l ih =>
    rw [List.mem_cons, not_or] at h
    obtain ⟨ha, hl⟩ := h
    rw [List.cons_append, text, if_neg (Ne.symm ha), ih hl]
    rfl

theorem same_append {l m : List α} (hl : stop ∉ l) (hm : stop ∉ m) (rest : List α) :
    same stop (l ++ stop :: rest) (m ++ [stop]) = some (decide (l = m)) := by
  induction l generalizing m with
  | nil =>
    cases m with
    | nil => simp [same]
    | cons b m =>
      rw [List.mem_cons, not_or] at hm
      simp [same, Ne.symm hm.1]
  | cons a l ih =>
    cases m with
    | nil =>
      rw [List.mem_cons, not_or] at hl
      simp [same, Ne.symm hl.1]
    | cons b m =>
      simp only [List.mem_cons, not_or] at hl hm
      rw [List.cons_append, List.cons_append, same, if_pos ⟨Ne.symm hl.1, Ne.symm hm.1⟩,
        ih hl.2 hm.2]
      by_cases hab : a = b
      · simp [hab]
      · simp [hab]

theorem starts_append {l m : List α} (hl : stop ∉ l) (hm : stop ∉ m) (rest : List α) :
    starts stop (m ++ [stop]) (l ++ stop :: rest) = some (decide (m <+: l)) := by
  induction m generalizing l with
  | nil => simp [starts]
  | cons b m ih =>
    rw [List.mem_cons, not_or] at hm
    cases l with
    | nil => simp [starts, Ne.symm hm.1, hm.1]
    | cons a l =>
      rw [List.mem_cons, not_or] at hl
      simp only [List.cons_append, starts, ih hl.2 hm.2, List.cons_prefix_cons]
      by_cases hab : a = b
      · simp [hab, Ne.symm hm.1]
      · simp [hab, Ne.symm hab, Ne.symm hm.1]

end Terminated
