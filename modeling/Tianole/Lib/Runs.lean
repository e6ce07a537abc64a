import Mathlib.Data.Nat.Notation

/-! Partial step functions: inversion of their results, and the runs they make. -/
namespace Runs

variable {σ α ε : Type*}

section Inversion
variable {β : Type*} {x : Except ε α}

theorem bind_ok {f : α → Except ε β} {b : β} (h : x.bind f = .ok b) :
    ∃ a, x = .ok a ∧ f a = .ok b := by
  cases x with
  | error e => cases h
  | ok a => exact ⟨a, rfl, h⟩

theorem map_ok {f : α → β} {b : β} (h : x.map f = .ok b) : ∃ a, x = .ok a ∧ f a = b := by
  cases x with
  | error e => cases h
  | ok a => exact ⟨a, rfl, Except.ok.inj h⟩

theorem mapError_ok {ε' : Type*} {f : ε → ε'} {a : α} (h : x.mapError f = .ok a) : x = .ok a := by
  cases x with
  | error e => cases h
  | ok b => exact congrArg Except.ok (Except.ok.inj h)

theorem bind_error {f : α → Except ε β} {e : ε} (h : x.bind f = .error e) :
    x = .error e ∨ ∃ a, x = .ok a ∧ f a = .error e := by
  cases x with
  | error e' => cases h; exact .inl rfl
  | ok a => exact .inr ⟨a, rfl, h⟩

theorem map_error {f : α → β} {e : ε} (h : x.map f = .error e) : x = .error e := by
  cases x with
  | error e' => cases h; rfl
  | ok a => cases h

end Inversion

/-- The states of runs that start in `init` and take only steps that `ok` admits. -/
inductive Reach (step : σ → α → Except ε σ) (init : σ → Prop) (ok : σ → α → Prop) : σ → Prop
  | start {s : σ} : init s → Reach step init ok s
  | next {s s' : σ} {a : α} : Reach step init ok s → ok s a → step s a = .ok s' →
      Reach step init ok s'

variable {step : σ → α → Except ε σ} {init : σ → Prop} {ok ok' : σ → α → Prop} {I : σ → Prop}

/-- What holds at the start and is kept by every admitted step holds throughout. -/
theorem Reach.invariant {s : σ} (h : Reach step init ok s) (hinit : ∀ s, init s → I s)
    (hstep : ∀ s a s', I s → ok s a → step s a = .ok s' → I s') : I s := by
  induction h with
  | start h => exact hinit _ h
  | next _ ho hs ih => exact hstep _ _ _ ih ho hs

theorem Reach.mono {s : σ} (h : Reach step init ok s) (hok : ∀ s a, ok s a → ok' s a) :
    Reach step init ok' s := by
  induction h with
  | start h => exact .start h
  | next _ ho hs ih => exact .next ih (hok _ _ ho) hs

/-- The outcome of a list of steps. -/
def exec (step : σ → α → Except ε σ) : σ → List α → Except ε σ
  | s, [] => .ok s
  | s, a :: as => (step s a).bind fun s' => exec step s' as

/-- A list of steps that are all admitted, whatever the state, leads to a reached state. -/
theorem Reach.exec {s s' : σ} (h : Reach step init ok s) (as : List α)
    (hok : ∀ a ∈ as, ∀ s, ok s a) (he : exec step s as = .ok s') : Reach step init ok s' := by
  induction as generalizing s with
  | nil => cases he; exact h
  | cons a as ih =>
    cases hs : step s a with
    | error e => simp [Runs.exec, hs, Except.bind] at he
    | ok s₁ =>
      simp only [Runs.exec, hs, Except.bind] at he
      exact ih (.next h (hok a (by simp) s) hs) (fun b hb => hok b (by simp [hb])) he

/-- What is computed from the final state of such a list holds of a reached state. -/
theorem Reach.exec_map {β : Type*} {s : σ} {f : σ → β} {b : β} (h : Reach step init ok s)
    (as : List α) (hok : ∀ a ∈ as, ∀ s, ok s a) (he : (Runs.exec step s as).map f = .ok b) :
    ∃ s', Reach step init ok s' ∧ f s' = b := by
  obtain ⟨s', hs, hb⟩ := map_ok he
  exact ⟨s', h.exec as hok hs, hb⟩

/-- A list of admitted steps that fails does so in a reached state. -/
theorem Reach.exec_error {s : σ} {e : ε} (h : Reach step init ok s) (as : List α)
    (hok : ∀ a ∈ as, ∀ s, ok s a) (he : Runs.exec step s as = .error e) :
    ∃ s' a, Reach step init ok s' ∧ ok s' a ∧ step s' a = .error e := by
  induction as generalizing s with
  | nil => cases he
  | cons a as ih =>
    cases hs : step s a with
    | error e' =>
      simp only [Runs.exec, hs, Except.bind, Except.error.injEq] at he
      exact ⟨s, a, h, hok a (by simp) s, he ▸ hs⟩
    | ok s₁ =>
      simp only [Runs.exec, hs, Except.bind] at he
      exact ih (.next h (hok a (by simp) s) hs) (fun b hb => hok b (by simp [hb])) he

/-- The end of a list of steps, if each of them is admitted and succeeds. -/
def admitted (step : σ → α → Except ε σ) (ok : σ → α → Prop) [∀ s a, Decidable (ok s a)] :
    σ → List α → Option σ
  | s, [] => some s
  | s, a :: as =>
      if ok s a then
        match step s a with
        | .ok s' => admitted step ok s' as
        | .error _ => none
      else none

theorem Reach.admitted [∀ s a, Decidable (ok s a)] {s s' : σ} (h : Reach step init ok s)
    (as : List α) (he : Runs.admitted step ok s as = some s') : Reach step init ok s' := by
  induction as generalizing s with
  | nil => cases he; exact h
  | cons a as ih =>
    rw [Runs.admitted] at he
    split at he
    next ho =>
      cases hs : step s a with
      | error e => simp [hs] at he
      | ok s₁ =>
        rw [hs] at he
        exact ih (.next h ho hs) he
    next => cases he

/-- What is computed from the end of such a list holds of a reached state. -/
theorem Reach.admitted_map [∀ s a, Decidable (ok s a)] {β : Type*} {s : σ} {f : σ → β} {b : β}
    (h : Reach step init ok s) (as : List α)
    (he : (Runs.admitted step ok s as).map f = some b) : ∃ s', Reach step init ok s' ∧ f s' = b := by
  obtain ⟨s', hs, hb⟩ := Option.map_eq_some_iff.mp he
  exact ⟨s', h.admitted as hs, hb⟩

section Transcript
variable {β : Type*} {reply : σ → α → σ × β}

/-- Calls to a total step function: the last state, and every call with its reply. -/
def transcript (reply : σ → α → σ × β) : σ → List α → σ × List (α × β)
  | s, [] => (s, [])
  | s, a :: as =>
      let r := reply s a
      let rest := transcript reply r.1 as
      (rest.1, (a, r.2) :: rest.2)

theorem transcript_append (s : σ) (as bs : List α) : transcript reply s (as ++ bs) =
    ((transcript reply (transcript reply s as).1 bs).1,
      (transcript reply s as).2 ++ (transcript reply (transcript reply s as).1 bs).2) := by
  induction as generalizing s with
  | nil => rfl
  | cons a as ih => simp only [List.cons_append, transcript, ih]

/-- What relates the state to the calls so far is shown call by call. -/
theorem transcript_invariant {I : σ → List (α × β) → Prop}
    (hstep : ∀ s l a, I s l → I (reply s a).1 (l ++ [(a, (reply s a).2)])) {s : σ}
    {l : List (α × β)} (h : I s l) (as : List α) :
    I (transcript reply s as).1 (l ++ (transcript reply s as).2) := by
  induction as generalizing s l with
  | nil => simpa [transcript] using h
  | cons a as ih => simpa [transcript] using ih (hstep s l a h)

end Transcript

end Runs
