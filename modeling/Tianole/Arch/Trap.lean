import Mathlib.Tactic.Set
import Tianole.Lib.Stack

/-! The interrupt entry path of `arch/x86/kernel/exception_entry.S`. -/
namespace Tianole.Arch
open Stack

/-- The general registers that `exception_common` pushes. -/
inductive Reg where
  | rax | rbx | rcx | rdx | rsi | rdi | rbp | r8 | r9 | r10 | r11 | r12 | r13 | r14 | r15
  deriving DecidableEq, Repr

/-- The registers that a function under the System V ABI must preserve, besides `rsp`. -/
def Reg.calleeSaved : Reg → Bool
  | .rbx | .rbp | .r12 | .r13 | .r14 | .r15 => true
  | _ => false

structure Cpu where
  reg : Reg → Word
  rsp : Word
  rip : Word
  rflags : Word
  cs : Word
  ss : Word
  mem : Word → Word

namespace Cpu

def push (m : Cpu) (v : Word) : Cpu :=
  { m with rsp := m.rsp - 8, mem := Function.update m.mem (m.rsp - 8) v }

def set (m : Cpu) (r : Reg) (v : Word) : Cpu := { m with reg := Function.update m.reg r v }

/-- RFLAGS without TF, IF, NT and RF, as the CPU leaves it behind an interrupt gate. -/
def gateFlags (flags : Word) : Word := flags &&& ~~~(0x14300 : Word)

/-- Delivery of an interrupt in long mode through a gate without a stack switch: the stack is
aligned to 16 bytes and SS, RSP, RFLAGS, CS and RIP are pushed. -/
def deliver (m : Cpu) (entry : Word) : Cpu :=
  let old := m
  let m := { m with rsp := m.rsp &&& ~~~(15 : Word) }
  let m := ((((m.push old.ss).push old.rsp).push old.rflags).push old.cs).push old.rip
  { m with rflags := gateFlags old.rflags, rip := entry }

/-- `iretq` in long mode pops all five words. -/
def iretq (m : Cpu) : Cpu :=
  { m with
    rip := m.mem m.rsp
    cs := m.mem (m.rsp + 8)
    rflags := m.mem (m.rsp + 16)
    rsp := m.mem (m.rsp + 24)
    ss := m.mem (m.rsp + 32) }

end Cpu

inductive Instr where
  | pushImm (v : Word)
  | push (r : Reg)
  | cld
  | movRsp (r : Reg)
  | callDispatch
  | addRsp (n : Word)
  | iretq
  deriving DecidableEq, Repr

/-- One instruction; `dispatch` is the whole call of `trap_dispatch`. -/
def Instr.exec (dispatch : Cpu → Cpu) (m : Cpu) : Instr → Cpu
  | .pushImm v => m.push v
  | .push r => m.push (m.reg r)
  | .cld => { m with rflags := m.rflags &&& ~~~(0x400 : Word) }
  | .movRsp r => m.set r m.rsp
  | .callDispatch => dispatch m
  | .addRsp n => { m with rsp := m.rsp + n }
  | .iretq => m.iretq

def execAll (dispatch : Cpu → Cpu) (m : Cpu) (code : List Instr) : Cpu :=
  code.foldl (Instr.exec dispatch) m

/-- The installed IRQ stubs. -/
inductive IrqStub where
  | irq32 | irq33
  deriving DecidableEq, Repr

def IrqStub.vector : IrqStub → Word
  | .irq32 => 32
  | .irq33 => 33

/-- A stub up to its jump to `exception_common`. -/
def IrqStub.code (stub : IrqStub) : List Instr := [.pushImm 0, .pushImm stub.vector]

/-- The registers in the order in which `exception_common` pushes them. -/
def pushOrder : List Reg :=
  [.r15, .r14, .r13, .r12, .r11, .r10, .r9, .r8, .rbp, .rdi, .rsi, .rdx, .rcx, .rbx, .rax]

/-- `exception_common` up to the call. -/
def exceptionEnter : List Instr := .cld :: pushOrder.map .push ++ [.movRsp .rdi]

/-- `exception_common` after the call. -/
def exceptionLeave : List Instr := [.addRsp 120, .addRsp 16, .iretq]

def exceptionCommon : List Instr := exceptionEnter ++ .callDispatch :: exceptionLeave

/-- An interrupt from its delivery to the end of `iretq`. -/
def handleIrq (stub : IrqStub) (entry : Word) (dispatch : Cpu → Cpu) (m : Cpu) : Cpu :=
  execAll dispatch (m.deliver entry) (stub.code ++ exceptionCommon)

/-- The machine at the call of `trap_dispatch`. -/
def atCall (stub : IrqStub) (entry : Word) (m : Cpu) : Cpu :=
  execAll id (m.deliver entry) (stub.code ++ exceptionEnter)

/-! ### The trap frame -/

/-- The fields of `struct trap_frame`. -/
inductive Field where
  | reg (r : Reg)
  | vector | errorCode | rip | cs | rflags | rsp | ss
  deriving DecidableEq, Repr

/-- The position of a field in `struct trap_frame`, in quadwords. -/
def Field.index : Field → ℕ
  | .reg .rax => 0 | .reg .rbx => 1 | .reg .rcx => 2 | .reg .rdx => 3 | .reg .rsi => 4
  | .reg .rdi => 5 | .reg .rbp => 6 | .reg .r8 => 7 | .reg .r9 => 8 | .reg .r10 => 9
  | .reg .r11 => 10 | .reg .r12 => 11 | .reg .r13 => 12 | .reg .r14 => 13 | .reg .r15 => 14
  | .vector => 15 | .errorCode => 16 | .rip => 17 | .cs => 18 | .rflags => 19 | .rsp => 20
  | .ss => 21

def Field.address (f : Field) (frame : Word) : Word := frame + BitVec.ofNat 64 (8 * f.index)

/-- What the interrupted machine puts into a field. -/
def Field.value (f : Field) (stub : IrqStub) (m : Cpu) : Word :=
  match f with
  | .reg r => m.reg r
  | .vector => stub.vector
  | .errorCode => 0
  | .rip => m.rip
  | .cs => m.cs
  | .rflags => m.rflags
  | .rsp => m.rsp
  | .ss => m.ss

/-- A `trap_dispatch` that obeys the ABI and leaves the saved fields of its frame alone. The
other registers and the rest of memory it may change at will. -/
structure SysV (dispatch : Cpu → Cpu) : Prop where
  rsp : ∀ m, (dispatch m).rsp = m.rsp
  saved : ∀ m r, r.calleeSaved = true → (dispatch m).reg r = m.reg r
  frame : ∀ m (f : Field), (dispatch m).mem (f.address (m.reg .rdi)) = m.mem (f.address (m.reg .rdi))

/-- The interrupted code goes on as if nothing had happened. -/
structure Transparent (m m' : Cpu) : Prop where
  reg : ∀ r, m'.reg r = m.reg r
  rip : m'.rip = m.rip
  rflags : m'.rflags = m.rflags
  rsp : m'.rsp = m.rsp

section
variable {m : Cpu} {words : List Word} {stub : IrqStub} {entry : Word} {dispatch : Cpu → Cpu}

theorem Cpu.push_holds (h : Holds m.mem m.rsp words) (v : Word) (hl : words.length < 2 ^ 61) :
    Holds (m.push v).mem (m.push v).rsp (v :: words) := h.push v hl

/-- A run of register pushes leaves them on the stack, the last one on top. -/
theorem pushAll_holds (dispatch : Cpu → Cpu) (rs : List Reg) (h : Holds m.mem m.rsp words)
    (hl : words.length + rs.length < 2 ^ 61) :
    let m' := execAll dispatch m (rs.map .push)
    Holds m'.mem m'.rsp ((rs.map m.reg).reverse ++ words) ∧ m'.reg = m.reg := by
  induction rs generalizing m words with
  | nil => exact ⟨h, rfl⟩
  | cons r rs ih =>
    have hpush := Cpu.push_holds h (m.reg r) (by omega)
    obtain ⟨hh, hr⟩ := ih hpush (by simp only [List.length_cons] at hl ⊢; omega)
    refine ⟨?_, hr⟩
    have hreg : (m.push (m.reg r)).reg = m.reg := rfl
    rw [hreg] at hh
    simpa [execAll, Instr.exec] using hh

/-- The frame of an interrupt, as a list from its first field to its last. -/
def frameWords (stub : IrqStub) (m : Cpu) : List Word :=
  (pushOrder.map m.reg).reverse ++ [stub.vector, 0, m.rip, m.cs, m.rflags, m.rsp, m.ss]

theorem deliver_holds (m : Cpu) (entry : Word) :
    Holds (m.deliver entry).mem (m.deliver entry).rsp [m.rip, m.cs, m.rflags, m.rsp, m.ss] := by
  have h₀ : Holds m.mem (m.rsp &&& ~~~(15 : Word)) [] := holds_nil
  exact ((((h₀.push m.ss (by simp)).push m.rsp (by simp)).push m.rflags (by simp)).push m.cs
    (by simp)).push m.rip (by simp)

theorem atCall_holds (stub : IrqStub) (entry : Word) (m : Cpu) :
    Holds (atCall stub entry m).mem (atCall stub entry m).rsp (frameWords stub m) ∧
      (atCall stub entry m).reg = Function.update m.reg .rdi (atCall stub entry m).rsp := by
  have hstub := Cpu.push_holds (Cpu.push_holds (deliver_holds m entry) 0 (by simp))
    stub.vector (by simp)
  set m₁ : Cpu := ((m.deliver entry).push 0).push stub.vector with hm₁
  set m₂ : Cpu := { m₁ with rflags := m₁.rflags &&& ~~~(0x400 : Word) } with hm₂
  have hreg : m₂.reg = m.reg := rfl
  have h₂ : Holds m₂.mem m₂.rsp [stub.vector, 0, m.rip, m.cs, m.rflags, m.rsp, m.ss] := hstub
  obtain ⟨hh, hr⟩ := pushAll_holds id pushOrder h₂ (by simp [pushOrder])
  rw [hreg] at hh hr
  have hcall : atCall stub entry m =
      (execAll id m₂ (pushOrder.map .push)).set .rdi
        (execAll id m₂ (pushOrder.map .push)).rsp := by
    simp [atCall, execAll, IrqStub.code, exceptionEnter, Instr.exec, hm₂, hm₁]
  rw [hcall]
  refine ⟨hh, ?_⟩
  change Function.update (execAll id m₂ (pushOrder.map .push)).reg .rdi _ = _
  rw [hr]
  rfl

/-- At the call `rdi` points to a `struct trap_frame` that describes the interrupted code. -/
theorem atCall_field (stub : IrqStub) (entry : Word) (m : Cpu) (f : Field) :
    (atCall stub entry m).mem (f.address ((atCall stub entry m).reg .rdi)) = f.value stub m := by
  obtain ⟨hh, hr⟩ := atCall_holds stub entry m
  have hrdi : (atCall stub entry m).reg .rdi = (atCall stub entry m).rsp := by
    rw [hr, Function.update_self]
  have hidx : f.index < (frameWords stub m).length := by
    cases f with
    | reg r => cases r <;> simp [frameWords, pushOrder, Field.index]
    | _ => simp [frameWords, pushOrder, Field.index]
  rw [hrdi, Field.address, hh f.index hidx]
  cases f with
  | reg r => cases r <;> rfl
  | _ => rfl

/-- The end of the path: whatever `trap_dispatch` left in the registers stays there, and
`iretq` takes the rest from the frame. -/
theorem handleIrq_eq (h : SysV dispatch) (stub : IrqStub) (entry : Word) (m : Cpu) :
    (handleIrq stub entry dispatch m).reg = (dispatch (atCall stub entry m)).reg ∧
      (handleIrq stub entry dispatch m).rip = m.rip ∧
      (handleIrq stub entry dispatch m).rflags = m.rflags ∧
      (handleIrq stub entry dispatch m).rsp = m.rsp := by
  obtain ⟨-, hr⟩ := atCall_holds stub entry m
  set m₁ := atCall stub entry m with hm₁
  set m₂ := dispatch m₁ with hm₂
  have hsplit : handleIrq stub entry dispatch m = execAll dispatch m₂ exceptionLeave := by
    have henter : execAll dispatch (m.deliver entry) (stub.code ++ exceptionEnter) = m₁ := by
      simp [hm₁, atCall, execAll, IrqStub.code, exceptionEnter, pushOrder, Instr.exec]
    rw [handleIrq, exceptionCommon, ← List.append_assoc, execAll, List.foldl_append]
    change execAll dispatch (execAll dispatch (m.deliver entry) _) _ = _
    rw [henter]
    rfl
  have hrdi : m₁.reg .rdi = m₂.rsp := by rw [hm₂, h.rsp, hr, Function.update_self]
  have hfield (f : Field) : m₂.mem (m₂.rsp + BitVec.ofNat 64 (8 * f.index)) = f.value stub m := by
    rw [← hrdi]
    exact (h.frame m₁ f).trans (atCall_field stub entry m f)
  rw [hsplit]
  refine ⟨rfl, ?_, ?_, ?_⟩
  · refine Eq.trans ?_ (hfield .rip)
    simp [exceptionLeave, execAll, Instr.exec, Cpu.iretq, Field.index, BitVec.add_assoc]
  · refine Eq.trans ?_ (hfield .rflags)
    simp [exceptionLeave, execAll, Instr.exec, Cpu.iretq, Field.index, BitVec.add_assoc]
  · refine Eq.trans ?_ (hfield .rsp)
    simp [exceptionLeave, execAll, Instr.exec, Cpu.iretq, Field.index, BitVec.add_assoc]

/-- The path restores `rip`, `rflags`, `rsp` and the callee-saved registers, but it discards
the saved copies of the others: an interrupt is transparent exactly when `trap_dispatch`
itself returns with the interrupted values in them. -/
theorem handleIrq_transparent_iff (h : SysV dispatch) (stub : IrqStub) (entry : Word) (m : Cpu) :
    Transparent m (handleIrq stub entry dispatch m) ↔
      ∀ r, r.calleeSaved = false → (dispatch (atCall stub entry m)).reg r = m.reg r := by
  obtain ⟨hreg, hrip, hflags, hrsp⟩ := handleIrq_eq h stub entry m
  constructor
  · intro ht r _
    rw [← hreg]
    exact ht.reg r
  · intro hsaved
    refine ⟨fun r => ?_, hrip, hflags, hrsp⟩
    rw [hreg]
    cases hr : r.calleeSaved with
    | false => exact hsaved r hr
    | true =>
      rw [h.saved _ r hr, (atCall_holds stub entry m).2]
      exact Function.update_of_ne (by rintro rfl; cases hr) _ _

end

/-- A machine with all registers clear and an empty memory. -/
def quietCpu : Cpu := ⟨fun _ => 0, 0, 0, 0, 0, 0, fun _ => 0⟩

/-- A handler that reloads `rdi` from its frame before it returns. -/
def reloadRdi (m : Cpu) : Cpu := m.set .rdi (m.mem (Field.address (.reg .rdi) (m.reg .rdi)))

theorem reloadRdi_transparent : Transparent quietCpu (handleIrq .irq32 0 reloadRdi quietCpu) := by
  have hsys : SysV reloadRdi := by
    refine ⟨fun _ => rfl, fun m r hr => ?_, fun _ _ => rfl⟩
    exact Function.update_of_ne (by rintro rfl; cases hr) _ _
  refine (handleIrq_transparent_iff hsys .irq32 0 quietCpu).mpr fun r _ => ?_
  by_cases hr : r = .rdi
  · subst hr
    simp only [reloadRdi, Cpu.set, Function.update_self]
    exact atCall_field .irq32 0 quietCpu (.reg .rdi)
  · refine (Function.update_of_ne hr _ _).trans ?_
    rw [(atCall_holds .irq32 0 quietCpu).2]
    exact Function.update_of_ne hr _ _

/-- A handler that returns a status in `rax`, as any C function may. -/
theorem clobbered_rax_not_transparent : ∃ stub entry dispatch m, SysV dispatch ∧
    ¬ Transparent m (handleIrq stub entry dispatch m) := by
  refine ⟨.irq32, 0, fun m => m.set .rax 1, quietCpu, ⟨fun _ => rfl, fun m r hr => ?_,
    fun _ _ => rfl⟩, fun ht => ?_⟩
  · exact Function.update_of_ne (by rintro rfl; cases hr) _ _
  · have := ht.reg .rax
    exact absurd this (by decide)

end Tianole.Arch
