import UnixProgramming.Libmini.Delivery

namespace UnixProgramming.Libmini.Proofs
open Lib

/-! ## Frames on the stack -/

/-- The registers in the order of a `struct sigcontext`. -/
def sigcontext : List Gpr :=
  [.r8, .r9, .r10, .r11, .r12, .r13, .r14, .r15, .rdi, .rsi, .rbp, .rbx, .rdx, .rax, .rcx, .rsp]

/-- The bytes of a signal frame. -/
def frameSize : Nat := 440

/-- The context in a signal frame. In front of it are the address the handler returns to and
what tells of the stack, behind it the mask. -/
def frameContext (m : Memory 64) (frame : Word) : Context where
  regs i := load 8 m (frame + BitVec.ofNat 64 (48 + 8 * sigcontext.idxOf i))
  rip := load 8 m (frame + 176)
  rflags := load 8 m (frame + 184)
  mask := .of (load 8 m (frame + 304))

/-- The words of a signal frame that holds `x`. -/
def frameWords (restorer : Word) (x : Context) : List Word :=
  restorer :: List.replicate 5 0 ++ sigcontext.map x.regs ++ [x.rip, x.rflags] ++
    List.replicate 14 0 ++ [x.mask.bits] ++ List.replicate 16 0

/-! ## A kernel that keeps contexts in them -/

/-- `rt_sigreturn`, behind whose frame `rsp` is by one word. -/
def sigreturn (c : Cpu) : Cpu :=
  let x := frameContext c.mem (c.regs .rsp - 8)
  { regs := x.regs
    rip := x.rip
    rflags := (c.rflags &&& ~~~FIX_EFLAGS) ||| (x.rflags &&& FIX_EFLAGS)
    mem := c.mem
    mask := x.mask }

def ENOSYS : Word := 38

/-- A system call that there is not. -/
def nosys (c : Cpu) (next : Word) : Cpu :=
  { c with
    regs := ((c.regs.set .rax (-ENOSYS)).set .rcx next).set .r11 c.rflags
    rip := next }

/-- The bit of a signal in a mask. -/
def sigbit (sig : CInt) : Word := 1#64 <<< (sig - 1)

def blocks (a : Action) (sig : CInt) (mask : SigMask) : SigMask :=
  .of (mask.bits ||| a.sa_mask ||| if a.sa_flags &&& SA_NODEFER = 0 then sigbit sig else 0)

def deliver (t : Thread) (sig : CInt) (frame : Word) : Thread where
  cpu :=
    { regs := (t.cpu.regs.set .rsp frame).set .rdi (sig.signExtend 64)
      rip := (t.actions sig).sa_handler
      rflags := t.cpu.rflags &&& ~~~0x10500
      mem := fill 8 t.cpu.mem frame (frameWords (t.actions sig).sa_restorer t.cpu.context)
      mask := blocks (t.actions sig) sig t.cpu.mask }
  actions := if (t.actions sig).sa_flags &&& SA_RESETHAND = 0 then t.actions
    else t.actions.set sig { t.actions sig with sa_handler := SIG_DFL }

/-- When and where a signal can be delivered. -/
structure Deliverable (t : Thread) (sig : CInt) (frame : Word) : Prop where
  unblocked : t.cpu.mask.bits &&& sigbit sig = 0
  caught : (t.actions sig).Caught
  restorer : (t.actions sig).sa_flags &&& SA_RESTORER ≠ 0
  room : frame.toNat + frameSize + redZone ≤ (t.cpu.regs .rsp).toNat
  aligned : (frame.toNat + 8) % 16 = 0

/-- This kernel knows no other system call. -/
def framing : SigKernel where
  Returns t next t' := t' = { t with
    cpu := if t.cpu.regs .rax = SYS_rt_sigreturn then sigreturn t.cpu else nosys t.cpu next }
  Delivers t sig frame t' := Deliverable t sig frame ∧ t' = deliver t sig frame

/-! ## It is as documented -/

section Flags

end Flags

section Frame
variable {m m' : Memory 64} {frame : Word} {t : Thread} {sig : CInt}

end Frame

end UnixProgramming.Libmini.Proofs
