import UnixProgramming.Libmini.Asm
import UnixProgramming.Libmini.Sigaction

namespace UnixProgramming.Libmini
open Lib

/-- `sigrestore`, under the label `l`. -/
def sigrestore {ℓ : Type} (l : ℓ) : List (Line ℓ) :=
  [.label l,
   .movImm .rax 15,
   .syscall,
   .ret]

def SYS_rt_sigreturn : Word := 15

/-- The flags that a signal frame gives back: AC, RF, OF, DF, TF, SF, ZF, AF, PF and CF. -/
def FIX_EFLAGS : Word := 0x50dd5

/-- What a signal interrupts, but for the memory. -/
structure Context where
  regs : Gprs
  rip : Word
  rflags : Word
  mask : SigMask

def Cpu.context (c : Cpu) : Context := ⟨c.regs, c.rip, c.rflags, c.mask⟩

/-- A thread, and the actions of its process. -/
structure Thread where
  cpu : Cpu
  actions : Actions

/-- A signal with this action has a handler. -/
def Action.Caught (a : Action) : Prop := a.sa_handler ≠ SIG_DFL ∧ a.sa_handler ≠ SIG_IGN

instance (a : Action) : Decidable a.Caught :=
  inferInstanceAs (Decidable (a.sa_handler ≠ SIG_DFL ∧ a.sa_handler ≠ SIG_IGN))

/-- The bytes under the stack that a signal leaves alone. -/
def redZone : Nat := 128

/-- What lies between `frame` and the red zone of a thread. -/
def InFrame (t : Thread) (frame a : Word) : Prop :=
  frame.toNat ≤ a.toNat ∧ a.toNat + redZone < (t.cpu.regs .rsp).toNat

/-! ## The kernel -/

/-- The kernel as threads meet it: how it may come back from a system call, `next` being the
address behind it, and how it may let a thread handle a signal. -/
structure SigKernel where
  Returns : (t : Thread) → (next : Word) → (t' : Thread) → Prop
  Delivers : (t : Thread) → (sig : CInt) → (frame : Word) → (t' : Thread) → Prop

/-- What is documented of a delivery: the thread goes on in the handler of `sig`, on its own
stack, as if the restorer had called it. -/
structure Delivered (t : Thread) (sig : CInt) (frame : Word) (t' : Thread) : Prop where
  caught : (t.actions sig).Caught
  room : frame.toNat + 8 + redZone ≤ (t.cpu.regs .rsp).toNat
  rip : t'.cpu.rip = (t.actions sig).sa_handler
  rsp : t'.cpu.regs .rsp = frame
  ret : load 8 t'.cpu.mem frame = (t.actions sig).sa_restorer
  mem : ∀ a, ¬InFrame t frame a → t'.cpu.mem a = t.cpu.mem a
  actions : ∀ k, t'.actions k = t.actions k ∨ (t'.actions k).sa_handler = SIG_DFL

/-- What is documented of the kernel: when the handler has returned to its restorer and the frame
is as it was written, `rt_sigreturn` takes the thread back to what the signal interrupted. -/
structure SigKernel.Lawful (K : SigKernel) : Prop where
  delivered {t t' : Thread} {sig : CInt} {frame : Word} (h : K.Delivers t sig frame t') :
    Delivered t sig frame t'
  sigreturn {t t₁ t₂ t₃ : Thread} {sig : CInt} {frame next : Word}
      (h : K.Delivers t sig frame t₁) (rax : t₂.cpu.regs .rax = SYS_rt_sigreturn)
      (rsp : t₂.cpu.regs .rsp = frame + 8)
      (rflags : t₂.cpu.rflags &&& ~~~FIX_EFLAGS = t₁.cpu.rflags &&& ~~~FIX_EFLAGS)
      (intact : ∀ a, InFrame t frame a → t₂.cpu.mem a = t₁.cpu.mem a)
      (ret : K.Returns t₂ next t₃) : t₃.cpu.context = t.cpu.context
  rflags {t t' : Thread} {next : Word} (h : K.Returns t next t') :
    t'.cpu.rflags &&& ~~~FIX_EFLAGS = t.cpu.rflags &&& ~~~FIX_EFLAGS

/-- A thread may come from `t` to `t'` by one instruction. -/
def Image.Moves {ℓ : Type} (M : Image ℓ) (K : SigKernel) (t t' : Thread) : Prop :=
  match M.fetch t.cpu.rip with
  | none => False
  | some (.syscall, next) => K.Returns t next t'
  | some (i, next) => t' = { t with cpu := M.exec t.cpu next i }

end UnixProgramming.Libmini
