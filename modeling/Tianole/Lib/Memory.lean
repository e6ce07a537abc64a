import Mathlib.Algebra.Order.Ring.Nat
import Mathlib.Logic.Function.Basic

/-! Byte-addressed memory with little-endian numbers of any width. -/
namespace Memory

abbrev Mem := ℕ → UInt8

/-- The number in the `n` bytes from `a` on. -/
def load (m : Mem) (a : ℕ) : ℕ → ℕ
  | 0 => 0
  | n + 1 => (m a).toNat + 256 * load m (a + 1) n

/-- Write the low `n` bytes of `v` from `a` on. -/
def store (m : Mem) (a : ℕ) : ℕ → ℕ → Mem
  | 0, _ => m
  | n + 1, v => Function.update (store m (a + 1) n (v / 256)) a (UInt8.ofNat v)

variable {m m' : Mem} {a b n k v x : ℕ}

theorem store_of_outside (h : x < a ∨ a + n ≤ x) : store m a n v x = m x := by
  induction n generalizing a v with
  | zero => rfl
  | succ n ih =>
    have hne : x ≠ a := by omega
    rw [store, Function.update_of_ne hne]
    exact ih (by omega)

/-- What a store leaves at an address depends on what was there only. -/
theorem store_apply_congr (h : m' x = m x) : store m' a n v x = store m a n v x := by
  induction n generalizing a v with
  | zero => exact h
  | succ n ih =>
    rw [store, store]
    by_cases hx : x = a
    · rw [hx, Function.update_self, Function.update_self]
    · rw [Function.update_of_ne hx, Function.update_of_ne hx]
      exact ih

theorem load_congr (h : ∀ x, a ≤ x → x < a + n → m' x = m x) : load m' a n = load m a n := by
  induction n generalizing a with
  | zero => rfl
  | succ n ih =>
    have htail : load m' (a + 1) n = load m (a + 1) n :=
      ih fun x h₁ h₂ => h x (by omega) (by omega)
    rw [load, load, htail, h a (by omega) (by omega)]

theorem load_lt : load m a n < 256 ^ n := by
  induction n generalizing a with
  | zero => simp [load]
  | succ n ih =>
    have hbyte : (m a).toNat < 256 := (m a).toNat_lt
    have htail : load m (a + 1) n < 256 ^ n := ih
    rw [load, Nat.pow_succ]
    omega

/-- The number whose bytes are in memory. -/
theorem load_of_bytes (h : ∀ k < n, m (a + k) = UInt8.ofNat (v / 256 ^ k)) :
    load m a n = v % 256 ^ n := by
  induction n generalizing a v with
  | zero => simp [load, Nat.mod_one]
  | succ n ih =>
    have hhead : (m a).toNat = v % 256 := by
      rw [show m a = UInt8.ofNat v by simpa using h 0 (Nat.succ_pos n), UInt8.toNat_ofNat']
    have htail : load m (a + 1) n = v / 256 % 256 ^ n := by
      refine ih fun k hk => ?_
      rw [Nat.add_assoc, Nat.add_comm 1 k, h (k + 1) (Nat.succ_lt_succ hk), Nat.div_div_eq_div_mul,
        Nat.pow_succ']
    rw [load, htail, hhead, Nat.pow_succ', Nat.mod_mul]

theorem load_store : load (store m a n v) a n = v % 256 ^ n := by
  induction n generalizing a v with
  | zero => simp [load, Nat.mod_one]
  | succ n ih =>
    have htail : load (store m a (n + 1) v) (a + 1) n = v / 256 % 256 ^ n := by
      rw [← ih (a := a + 1)]
      refine load_congr fun x h₁ _ => ?_
      rw [store, Function.update_of_ne (by omega)]
    have hhead : (store m a (n + 1) v a).toNat = v % 256 := by
      rw [store, Function.update_self, UInt8.toNat_ofNat']
    rw [load, htail, hhead, Nat.pow_succ', Nat.mod_mul]

/-- Equal numbers have equal bytes. -/
theorem eq_of_load_eq (h : load m' a n = load m a n) (hx : a ≤ x) (hx' : x < a + n) :
    m' x = m x := by
  induction n generalizing a with
  | zero => omega
  | succ n ih =>
    have hbyte : (m a).toNat < 256 := (m a).toNat_lt
    have hbyte' : (m' a).toNat < 256 := (m' a).toNat_lt
    rw [load, load] at h
    by_cases hxa : x = a
    · rw [hxa]
      exact UInt8.toNat_inj.mp (by omega)
    · have htail : load m' (a + 1) n = load m (a + 1) n := by omega
      exact ih htail (by omega) (by omega)

theorem load_store_of_lt (h : v < 256 ^ n) : load (store m a n v) a n = v := by
  rw [load_store, Nat.mod_eq_of_lt h]

theorem load_store_of_disjoint (h : b + k ≤ a ∨ a + n ≤ b) :
    load (store m a n v) b k = load m b k :=
  load_congr fun x h₁ h₂ => store_of_outside (by omega)

end Memory
