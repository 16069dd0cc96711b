import Mathlib.Data.BitVec

/-!
# Interrupt Frames

The entry code of an interrupt pushes the registers of whatever was running as an
`InterruptFrame`, and its exit code pops them again, so that a handler which changes the
frame changes what runs next. `save` copies a frame into the saved registers of a thread
and `restore` copies saved registers into a frame.

The array of general registers is a function of the enumeration that indexes it.

## Main results

* `InterruptFrame.resumes_restore_save`: a frame that is restored from a saved frame resumes
  what the saved frame interrupted.
-/

namespace HydroxKernel.Arch

/-- `GeneralRegister`. -/
inductive GeneralRegister
  | rax | rbx | rcx | rdx | rbp | rsp | rsi | rdi
  | r8 | r9 | r10 | r11 | r12 | r13 | r14 | r15
  deriving DecidableEq

/-- `SavedBasicRegisters`. -/
structure SavedBasicRegisters where
  rip : BitVec 64
  rflags : BitVec 64
  gprs : GeneralRegister → BitVec 64
  cs : BitVec 16
  ss : BitVec 16
  ds : BitVec 16
  es : BitVec 16
  fs : BitVec 16
  gs : BitVec 16
  fsbase : BitVec 64
  gsbase : BitVec 64

/-- `SavedBasicRegisters::new`. -/
def SavedBasicRegisters.new : SavedBasicRegisters :=
  ⟨0, 0, fun _ => 0, 0, 0, 0, 0, 0, 0, 0, 0⟩

/-- `SavedBasicRegisters::set_gpr`. -/
def SavedBasicRegisters.setGpr (regs : SavedBasicRegisters) (reg : GeneralRegister)
    (val : BitVec 64) : SavedBasicRegisters :=
  { regs with gprs := fun r => if r = reg then val else regs.gprs r }

/-- `SavedBasicRegisters::new_kernel_thread`. -/
def SavedBasicRegisters.newKernelThread (f arg stack : BitVec 64) : SavedBasicRegisters :=
  { ({ SavedBasicRegisters.new with rip := f }.setGpr .rdi arg).setGpr .rsp stack with
    cs := 0x08, ss := 0x10, ds := 0x10, es := 0x10, fs := 0x10, gs := 0x10 }

/-- `SavedBasicRegisters::new_user_thread`. -/
def SavedBasicRegisters.newUserThread (f arg stack : BitVec 64) : SavedBasicRegisters :=
  { ({ SavedBasicRegisters.new with rip := f, rflags := 0 ||| 1#64 <<< 9 }.setGpr
      .rdi arg).setGpr .rsp stack with
    cs := 0x18, ss := 0x20, ds := 0x20, es := 0x20, fs := 0x20, gs := 0x20 }

/-- `SavedRegisters`. The extended registers are the bytes that `xsave` writes. -/
structure SavedRegisters where
  basic : SavedBasicRegisters
  ext : List UInt8

/-- `InterruptFrame`. -/
structure InterruptFrame where
  gsbase : BitVec 64
  fsbase : BitVec 64
  gs : BitVec 64
  fs : BitVec 64
  es : BitVec 64
  ds : BitVec 64
  r15 : BitVec 64
  r14 : BitVec 64
  r13 : BitVec 64
  r12 : BitVec 64
  r11 : BitVec 64
  r10 : BitVec 64
  r9 : BitVec 64
  r8 : BitVec 64
  rdi : BitVec 64
  rsi : BitVec 64
  rbp : BitVec 64
  rdx : BitVec 64
  rcx : BitVec 64
  rbx : BitVec 64
  rax : BitVec 64
  interruptNum : BitVec 64
  errorCode : BitVec 64
  rip : BitVec 64
  cs : BitVec 64
  rflags : BitVec 64
  rsp : BitVec 64
  ss : BitVec 64
  deriving DecidableEq

namespace InterruptFrame

/-- `InterruptFrame::save`. -/
def save (self : InterruptFrame) (saved : SavedBasicRegisters) : SavedBasicRegisters :=
  { saved with
    rip := self.rip
    rflags := self.rflags
    gprs := fun
      | .rax => self.rax
      | .rbx => self.rbx
      | .rcx => self.rcx
      | .rdx => self.rdx
      | .rbp => self.rbp
      | .rsp => self.rsp
      | .rsi => self.rsi
      | .rdi => self.rdi
      | .r8 => self.r8
      | .r9 => self.r9
      | .r10 => self.r10
      | .r11 => self.r11
      | .r12 => self.r12
      | .r13 => self.r13
      | .r14 => self.r14
      | .r15 => self.r15
    cs := self.cs.setWidth 16
    ss := self.ss.setWidth 16
    ds := self.ds.setWidth 16
    es := self.es.setWidth 16
    fs := self.fs.setWidth 16
    gs := self.gs.setWidth 16
    fsbase := self.fsbase
    gsbase := self.gsbase }

/-- `InterruptFrame::restore`. -/
def restore (self : InterruptFrame) (saved : SavedBasicRegisters) : InterruptFrame :=
  { self with
    rip := saved.rip
    rflags := saved.rflags
    rax := saved.gprs .rax
    rbx := saved.gprs .rbx
    rcx := saved.gprs .rcx
    rdx := saved.gprs .rdx
    rbp := saved.gprs .rbp
    rsp := saved.gprs .rsp
    rsi := saved.gprs .rsi
    rdi := saved.gprs .rdi
    r8 := saved.gprs .r8
    r9 := saved.gprs .r9
    r10 := saved.gprs .r10
    r11 := saved.gprs .r11
    r12 := saved.gprs .r12
    r13 := saved.gprs .r13
    r14 := saved.gprs .r14
    r15 := saved.gprs .r15
    cs := saved.cs.setWidth 64
    ds := saved.ds.setWidth 64
    es := saved.es.setWidth 64
    ss := saved.ss.setWidth 64
    fs := saved.fs.setWidth 64
    gs := saved.gs.setWidth 64
    fsbase := saved.fsbase
    gsbase := saved.gsbase }

/-- `InterruptFrame::set_to_idle`, where `idle` is the address of the idle loop. -/
def setToIdle (self : InterruptFrame) (idle : BitVec 64) : InterruptFrame :=
  { self with rip := idle }

/-- `InterruptFrame::setup_kernel_mode_thread_locals`, where `msr` is the value of the model
specific register `0xc0000100`. -/
def setupKernelModeThreadLocals (self : InterruptFrame) (msr : BitVec 64) : InterruptFrame :=
  { self with fsbase := msr }

/-- The general registers of a frame. -/
def gpr (self : InterruptFrame) : GeneralRegister → BitVec 64
  | .rax => self.rax
  | .rbx => self.rbx
  | .rcx => self.rcx
  | .rdx => self.rdx
  | .rbp => self.rbp
  | .rsp => self.rsp
  | .rsi => self.rsi
  | .rdi => self.rdi
  | .r8 => self.r8
  | .r9 => self.r9
  | .r10 => self.r10
  | .r11 => self.r11
  | .r12 => self.r12
  | .r13 => self.r13
  | .r14 => self.r14
  | .r15 => self.r15

/-- The selectors of a frame are sixteen bits wide, as the processor pushes them. -/
structure SelectorsFit (f : InterruptFrame) : Prop where
  cs : f.cs.toNat < 2 ^ 16
  ss : f.ss.toNat < 2 ^ 16
  ds : f.ds.toNat < 2 ^ 16
  es : f.es.toNat < 2 ^ 16
  fs : f.fs.toNat < 2 ^ 16
  gs : f.gs.toNat < 2 ^ 16

/-- Two frames agree in the instruction pointer, all general registers, all selectors and
`gsbase`. -/
structure Resumes (out f : InterruptFrame) : Prop where
  rip : out.rip = f.rip
  gpr : ∀ r, out.gpr r = f.gpr r
  cs : out.cs = f.cs
  ss : out.ss = f.ss
  ds : out.ds = f.ds
  es : out.es = f.es
  fs : out.fs = f.fs
  gs : out.gs = f.gs
  gsbase : out.gsbase = f.gsbase

/-- A value of sixteen bits survives being cut to sixteen bits. -/
theorem setWidth_setWidth_of_lt {x : BitVec 64} (hx : x.toNat < 2 ^ 16) :
    (x.setWidth 16).setWidth 64 = x := by
  apply BitVec.eq_of_toNat_eq
  rw [BitVec.toNat_setWidth, BitVec.toNat_setWidth, Nat.mod_eq_of_lt hx, Nat.mod_eq_of_lt x.isLt]

/-- **A frame that is restored from a saved frame resumes what that frame interrupted.** -/
theorem resumes_restore_save {f : InterruptFrame} (hf : f.SelectorsFit) (out : InterruptFrame)
    (saved : SavedBasicRegisters) : (out.restore (f.save saved)).Resumes f where
  rip := rfl
  gpr r := by cases r <;> rfl
  cs := setWidth_setWidth_of_lt hf.cs
  ss := setWidth_setWidth_of_lt hf.ss
  ds := setWidth_setWidth_of_lt hf.ds
  es := setWidth_setWidth_of_lt hf.es
  fs := setWidth_setWidth_of_lt hf.fs
  gs := setWidth_setWidth_of_lt hf.gs
  gsbase := rfl

end InterruptFrame

end HydroxKernel.Arch
