import Tianole.Lib.Memory

/-! A downward-growing stack of 64-bit words in byte-addressed memory. Slots may have any
alignment, so that words are told apart by the bytes they occupy. -/
namespace ByteStack
open Memory

abbrev Word := BitVec 64

def loadWord (m : Mem) (a : Word) : Word := BitVec.ofNat 64 (load m a.toNat 8)

def storeWord (m : Mem) (a v : Word) : Mem := store m a.toNat 8 v.toNat

/-- A memory and a stack pointer after a push. -/
def push (s : Mem × Word) (v : Word) : Mem × Word := (storeWord s.1 (s.2 - 8) v, s.2 - 8)

/-- The words from `a` upwards. -/
def Holds (m : Mem) (a : Word) : List Word → Prop
  | [] => True
  | w :: ws => loadWord m a = w ∧ Holds m (a + 8) ws

variable {m m' : Mem} {a b v : Word} {ws vs : List Word}

theorem loadWord_storeWord : loadWord (storeWord m a v) a = v := by
  have hv : v.toNat < 256 ^ 8 := v.isLt
  rw [loadWord, storeWord, load_store_of_lt hv, BitVec.ofNat_toNat, BitVec.setWidth_eq]

theorem loadWord_congr (h : ∀ x, a.toNat ≤ x → x < a.toNat + 8 → m' x = m x) :
    loadWord m' a = loadWord m a := by
  rw [loadWord, loadWord, load_congr h]

theorem storeWord_of_outside {x : ℕ} (h : x < a.toNat ∨ a.toNat + 8 ≤ x) :
    storeWord m a v x = m x := store_of_outside h

theorem toNat_add_eight (h : a.toNat + 8 < 2 ^ 64) : (a + 8).toNat = a.toNat + 8 := by
  have h8 : (8 : Word).toNat = 8 := rfl
  rw [BitVec.toNat_add, h8]
  omega

theorem toNat_sub_eight (h : 8 ≤ a.toNat) : (a - 8).toNat = a.toNat - 8 := by
  have h8 : (8 : Word).toNat = 8 := rfl
  have ha := a.isLt
  rw [BitVec.toNat_sub, h8]
  omega

/-- What is held survives changes elsewhere. -/
theorem Holds.congr (h : Holds m a ws) (hb : a.toNat + 8 * ws.length < 2 ^ 64)
    (hm : ∀ x, a.toNat ≤ x → x < a.toNat + 8 * ws.length → m' x = m x) : Holds m' a ws := by
  induction ws generalizing a with
  | nil => trivial
  | cons w ws ih =>
    simp only [List.length_cons] at hb hm
    have hnext : (a + 8).toNat = a.toNat + 8 := toNat_add_eight (by omega)
    refine ⟨?_, ih h.2 (by omega) fun x h₁ h₂ => hm x (by omega) (by omega)⟩
    rw [loadWord_congr fun x h₁ h₂ => hm x h₁ (by omega)]
    exact h.1

/-- A push goes below everything that is held. -/
theorem Holds.push (h : Holds m a ws) (v : Word) (hlow : 8 ≤ a.toNat)
    (hb : a.toNat + 8 * ws.length < 2 ^ 64) :
    Holds (ByteStack.push (m, a) v).1 (ByteStack.push (m, a) v).2 (v :: ws) := by
  have hsp : (a - 8).toNat = a.toNat - 8 := toNat_sub_eight hlow
  refine ⟨loadWord_storeWord, ?_⟩
  simp only [ByteStack.push, BitVec.sub_add_cancel]
  exact h.congr hb fun x h₁ _ => storeWord_of_outside (by omega)

/-- Pushes one after the other: the last word is on top, and only the new slots are written. -/
theorem Holds.pushAll (h : Holds m a ws) (vs : List Word) (hlow : 8 * vs.length ≤ a.toNat)
    (hb : a.toNat + 8 * ws.length < 2 ^ 64) :
    Holds (vs.foldl ByteStack.push (m, a)).1 (vs.foldl ByteStack.push (m, a)).2
        (vs.reverse ++ ws) ∧
      (vs.foldl ByteStack.push (m, a)).2.toNat = a.toNat - 8 * vs.length ∧
      ∀ x, x < a.toNat - 8 * vs.length ∨ a.toNat ≤ x →
        (vs.foldl ByteStack.push (m, a)).1 x = m x := by
  induction vs generalizing m a ws with
  | nil => exact ⟨h, by simp, fun _ _ => rfl⟩
  | cons v vs ih =>
    simp only [List.length_cons] at hlow ⊢
    have hsp : (a - 8).toNat = a.toNat - 8 := toNat_sub_eight (by omega)
    have hpush := h.push v (by omega) hb
    obtain ⟨hholds, htop, houtside⟩ := ih hpush (by rw [ByteStack.push, hsp]; omega)
      (by rw [ByteStack.push, hsp, List.length_cons]; omega)
    simp only [ByteStack.push, hsp] at htop houtside
    refine ⟨?_, ?_, fun x hx => ?_⟩
    · simpa using hholds
    · rw [List.foldl_cons, ByteStack.push, htop]
      omega
    · rw [List.foldl_cons, ByteStack.push, houtside x (by omega)]
      exact storeWord_of_outside (by omega)

end ByteStack
