import Tianole.Arch.Trap
import Tianole.Lib.ByteStack

/-! The context switch of `arch/x86/kernel/switch.S` and the stack on which a new thread starts,
over byte-addressed memory. -/
namespace Tianole.Arch
open Memory ByteStack

/-- The registers and the memory that a context switch reads and writes. -/
structure Processor where
  reg : Reg → Word
  rsp : Word
  rip : Word
  mem : Mem

inductive SwitchInstr where
  | pushq (r : Reg)
  /-- `movq %rsp, (r)` -/
  | storeRsp (r : Reg)
  /-- `movq r, %rsp` -/
  | loadRsp (r : Reg)
  | popq (r : Reg)
  | ret
  deriving DecidableEq, Repr

namespace Processor

def pushq (m : Processor) (v : Word) : Processor :=
  { m with mem := (push (m.mem, m.rsp) v).1, rsp := (push (m.mem, m.rsp) v).2 }

def popq (m : Processor) (r : Reg) : Processor :=
  { m with reg := Function.update m.reg r (loadWord m.mem m.rsp), rsp := m.rsp + 8 }

end Processor

def SwitchInstr.exec (m : Processor) : SwitchInstr → Processor
  | .pushq r => m.pushq (m.reg r)
  | .storeRsp r => { m with mem := storeWord m.mem (m.reg r) m.rsp }
  | .loadRsp r => { m with rsp := m.reg r }
  | .popq r => m.popq r
  | .ret => { m with rip := loadWord m.mem m.rsp, rsp := m.rsp + 8 }

/-- The registers in the order in which `arch_context_switch` pushes them. -/
def switchPushes : List Reg := [.rbp, .rbx, .r12, .r13, .r14, .r15]

/-- And in the order in which it pops them. -/
def switchPops : List Reg := [.r15, .r14, .r13, .r12, .rbx, .rbp]

def archContextSwitch : List SwitchInstr :=
  switchPushes.map .pushq ++ [.storeRsp .rdi, .loadRsp .rsi] ++ switchPops.map .popq ++ [.ret]

/-- A call of `arch_context_switch(slot, sp)` that is to return to `returnAddress`. -/
def callContextSwitch (m : Processor) (slot sp returnAddress : Word) : Processor :=
  let args := Function.update (Function.update m.reg .rdi slot) .rsi sp
  archContextSwitch.foldl SwitchInstr.exec (({ m with reg := args }).pushq returnAddress)

/-! ### The stack of a new thread -/

def stackAlignment : Word := 16

def alignDownUintptr (value alignment : Word) : Word := value &&& ~~~(alignment - 1)

/-- The words that `prepare_initial_stack` writes, first one first. -/
def initialStack (trampoline : Word) : List Word := [0, trampoline, 0, 0, 0, 0, 0, 0]

def prepareInitialStack (trampoline : Word) (mem : Mem) (stackTop : Word) : Mem × Word :=
  (initialStack trampoline).foldl push (mem, stackTop)

/-! ### What a switch does -/

/-- Where a context called `arch_context_switch`. -/
structure CallSite where
  reg : Reg → Word
  rsp : Word
  returnAddress : Word

/-- The seven words on top of a stack that has been switched away from. -/
def CallSite.frame (s : CallSite) : List Word := switchPops.map s.reg ++ [s.returnAddress]

/-- The stack pointer that leads to them. -/
def CallSite.pointer (s : CallSite) : Word := s.rsp - 56

/-- The context goes on as if the call had done nothing. -/
structure CallSite.Resumed (s : CallSite) (m : Processor) : Prop where
  rip : m.rip = s.returnAddress
  rsp : m.rsp = s.rsp
  reg : ∀ r, r.calleeSaved = true → m.reg r = s.reg r

section
variable {m : Processor} {ws : List Word} {f : Reg → Word}

theorem pushes_eq (rs : List Reg) : (rs.map .pushq).foldl SwitchInstr.exec m =
    { m with mem := ((rs.map m.reg).foldl push (m.mem, m.rsp)).1
             rsp := ((rs.map m.reg).foldl push (m.mem, m.rsp)).2 } := by
  induction rs generalizing m with
  | nil => rfl
  | cons r rs ih => exact ih

/-- Pops give the registers the words on the stack. -/
theorem pops_spec (rs : List Reg) (h : Holds m.mem m.rsp (rs.map f ++ ws)) :
    let m' := (rs.map .popq).foldl SwitchInstr.exec m
    Holds m'.mem m'.rsp ws ∧ m'.mem = m.mem ∧ m'.rsp = m.rsp + BitVec.ofNat 64 (8 * rs.length) ∧
      ∀ r, m'.reg r = if r ∈ rs then f r else m.reg r := by
  induction rs generalizing m with
  | nil => exact ⟨h, rfl, by simp, fun r => by simp⟩
  | cons r rs ih =>
    obtain ⟨hword, hrest⟩ := h
    obtain ⟨hholds, hmem, hrsp, hreg⟩ := ih (m := m.popq r) hrest
    refine ⟨hholds, hmem, ?_, fun q => ?_⟩
    · rw [List.length_cons, Nat.mul_succ, Nat.add_comm, BitVec.ofNat_add, ← BitVec.add_assoc]
      exact hrsp
    · refine (hreg q).trans ?_
      by_cases hq : q ∈ rs
      · simp [hq]
      · by_cases hqr : q = r
        · simp [hqr, Processor.popq, hword]
        · simp [hq, hqr, Processor.popq]

/-- The memory when `arch_context_switch` has saved its caller: the frame, and the pointer to it
in `slot`. -/
def Processor.savedMem (m : Processor) (slot returnAddress : Word) : Mem :=
  let pushed := (returnAddress :: switchPushes.map m.reg).foldl push (m.mem, m.rsp)
  storeWord pushed.1 slot pushed.2

variable {slot sp returnAddress : Word}

theorem callContextSwitch_eq : callContextSwitch m slot sp returnAddress =
    SwitchInstr.exec ((switchPops.map .popq).foldl SwitchInstr.exec
      { m with reg := Function.update (Function.update m.reg .rdi slot) .rsi sp
               rsp := sp
               mem := m.savedMem slot returnAddress }) .ret := by
  simp only [callContextSwitch, archContextSwitch, List.foldl_append, pushes_eq]
  rfl

/-- What the pushes of a switch leave. -/
theorem switchPushes_spec (m : Processor) (returnAddress : Word) (hlow : 56 ≤ m.rsp.toNat) :
    let pushed := (returnAddress :: switchPushes.map m.reg).foldl push (m.mem, m.rsp)
    pushed.2 = m.rsp - 56 ∧ (m.rsp - 56).toNat = m.rsp.toNat - 56 ∧
      Holds pushed.1 (m.rsp - 56) (CallSite.mk m.reg m.rsp returnAddress).frame ∧
      ∀ x, x < m.rsp.toNat - 56 ∨ m.rsp.toNat ≤ x → pushed.1 x = m.mem x := by
  have hnil : Holds m.mem m.rsp [] := trivial
  obtain ⟨hholds, htop, houtside⟩ := hnil.pushAll (returnAddress :: switchPushes.map m.reg)
    hlow m.rsp.isLt
  have hpointer : (m.rsp - 56).toNat = m.rsp.toNat - 56 := by
    have h56 : (56 : Word).toNat = 56 := rfl
    have hrsp := m.rsp.isLt
    rw [BitVec.toNat_sub, h56]
    omega
  have heq : ((returnAddress :: switchPushes.map m.reg).foldl push (m.mem, m.rsp)).2 =
      m.rsp - 56 := BitVec.eq_of_toNat_eq (htop.trans hpointer.symm)
  rw [heq] at hholds
  exact ⟨heq, hpointer, hholds, houtside⟩

theorem savedMem_outside {x : ℕ} (hlow : 56 ≤ m.rsp.toNat)
    (hx : x < m.rsp.toNat - 56 ∨ m.rsp.toNat ≤ x) (hslot : x < slot.toNat ∨ slot.toNat + 8 ≤ x) :
    m.savedMem slot returnAddress x = m.mem x := by
  obtain ⟨-, -, -, houtside⟩ := switchPushes_spec m returnAddress hlow
  rw [Processor.savedMem, storeWord_of_outside hslot]
  exact houtside x hx

theorem savedMem_slot (hlow : 56 ≤ m.rsp.toNat) :
    loadWord (m.savedMem slot returnAddress) slot = m.rsp - 56 := by
  obtain ⟨heq, -⟩ := switchPushes_spec m returnAddress hlow
  rw [Processor.savedMem, loadWord_storeWord, heq]

theorem savedMem_frame (hlow : 56 ≤ m.rsp.toNat)
    (hslot : slot.toNat + 8 ≤ m.rsp.toNat - 56 ∨ m.rsp.toNat ≤ slot.toNat) :
    Holds (m.savedMem slot returnAddress) (m.rsp - 56)
      (CallSite.mk m.reg m.rsp returnAddress).frame := by
  obtain ⟨-, hpointer, hholds, -⟩ := switchPushes_spec m returnAddress hlow
  have hlength : (CallSite.mk m.reg m.rsp returnAddress).frame.length = 7 := rfl
  have hrsp := m.rsp.isLt
  refine hholds.congr (by omega) fun x h₁ h₂ => ?_
  rw [Processor.savedMem, storeWord_of_outside (by omega)]

theorem Reg.calleeSaved_mem {r : Reg} (h : r.calleeSaved = true) : r ∈ switchPops := by
  cases r <;> simp_all [Reg.calleeSaved, switchPops]

/-- A switch to a stack pointer that leads to a frame resumes the context that left it. -/
theorem callContextSwitch_resumes {s : CallSite}
    (h : Holds (m.savedMem slot returnAddress) s.pointer s.frame) :
    s.Resumed (callContextSwitch m slot s.pointer returnAddress) ∧
      (callContextSwitch m slot s.pointer returnAddress).mem = m.savedMem slot returnAddress := by
  rw [callContextSwitch_eq]
  set m₀ : Processor := { m with
    reg := Function.update (Function.update m.reg .rdi slot) .rsi s.pointer
    rsp := s.pointer
    mem := m.savedMem slot returnAddress }
  have hframe : Holds m₀.mem m₀.rsp (switchPops.map s.reg ++ [s.returnAddress]) := h
  obtain ⟨⟨hret, -⟩, hmem, hrsp, hreg⟩ := pops_spec switchPops hframe
  refine ⟨⟨hret, ?_, fun r hr => ?_⟩, hmem⟩
  · have hpops : BitVec.ofNat 64 (8 * switchPops.length) + 8 = (56 : Word) := rfl
    simp only [SwitchInstr.exec]
    rw [hrsp, BitVec.add_assoc, hpops]
    exact BitVec.sub_add_cancel _ _
  · exact (hreg r).trans (if_pos (Reg.calleeSaved_mem hr))

end
end Tianole.Arch
