import Mathlib.Data.Nat.Notation
import Mathlib.Logic.Function.Basic

/-! A cache in front of a partial map. The map is looked up at any time, and what is found there
may be kept; entries are dropped one by one. -/
namespace Cache

variable {κ ν : Type*}

/-- Every value in the cache is the one of the map. -/
def Coherent (cache source : κ → Option ν) : Prop :=
  ∀ k v, cache k = some v → source k = some v

/-- The same, but perhaps for one key. -/
def CoherentBut (k₀ : κ) (cache source : κ → Option ν) : Prop :=
  ∀ k v, k ≠ k₀ → cache k = some v → source k = some v

/-- What a lookup through the cache gives. -/
def lookup (cache source : κ → Option ν) (k : κ) : Option ν := (cache k).or (source k)

variable [DecidableEq κ]

/-- Keep what the map says about a key. -/
def fill (source cache : κ → Option ν) (k : κ) : κ → Option ν :=
  Function.update cache k (source k)

def drop (cache : κ → Option ν) (k : κ) : κ → Option ν := Function.update cache k none

variable {cache source source' : κ → Option ν} {k k₀ : κ}

omit [DecidableEq κ] in
theorem coherent_empty : Coherent (fun _ => none) source := by
  intro k v h
  cases h

omit [DecidableEq κ] in
theorem Coherent.lookup_eq (h : Coherent cache source) : lookup cache source k = source k := by
  unfold lookup
  cases hk : cache k with
  | none => rfl
  | some v => exact (h k v hk).symm

omit [DecidableEq κ] in
/-- The map changes at one key. -/
theorem Coherent.but (h : Coherent cache source) (hs : ∀ k, k ≠ k₀ → source' k = source k) :
    CoherentBut k₀ cache source' := by
  intro k v hne hk
  rw [hs k hne]
  exact h k v hk

theorem CoherentBut.fill (h : CoherentBut k₀ cache source) (k : κ) :
    CoherentBut k₀ (fill source cache k) source := by
  intro k' v hne hk
  by_cases hkk : k' = k
  · subst hkk
    rwa [Cache.fill, Function.update_self] at hk
  · rw [Cache.fill, Function.update_of_ne hkk] at hk
    exact h k' v hne hk

theorem CoherentBut.fills (h : CoherentBut k₀ cache source) (ks : List κ) :
    CoherentBut k₀ (ks.foldl (Cache.fill source) cache) source := by
  induction ks generalizing cache with
  | nil => exact h
  | cons k ks ih => exact ih (h.fill k)

/-- Dropping the entry of the key at which the map changed. -/
theorem CoherentBut.drop (h : CoherentBut k₀ cache source) : Coherent (drop cache k₀) source := by
  intro k v hk
  by_cases hkk : k = k₀
  · subst hkk
    rw [Cache.drop, Function.update_self] at hk
    cases hk
  · rw [Cache.drop, Function.update_of_ne hkk] at hk
    exact h k v hkk hk

theorem Coherent.fill (h : Coherent cache source) (k : κ) :
    Coherent (Cache.fill source cache k) source := by
  intro k' v hk
  by_cases hkk : k' = k
  · subst hkk
    rwa [Cache.fill, Function.update_self] at hk
  · rw [Cache.fill, Function.update_of_ne hkk] at hk
    exact h k' v hk

theorem Coherent.fills (h : Coherent cache source) (ks : List κ) :
    Coherent (ks.foldl (Cache.fill source) cache) source := by
  induction ks generalizing cache with
  | nil => exact h
  | cons k ks ih => exact ih (h.fill k)

theorem Coherent.drop (h : Coherent cache source) (k : κ) :
    Coherent (Cache.drop cache k) source := by
  apply CoherentBut.drop
  intro k' v _ hk
  exact h k' v hk

end Cache
