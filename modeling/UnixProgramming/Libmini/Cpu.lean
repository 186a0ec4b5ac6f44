import UnixProgramming.Lib.Memory

namespace UnixProgramming.Libmini
open Lib

abbrev Word := BitVec 64

inductive Gpr
  | rax | rbx | rcx | rdx | rsi | rdi | rbp | rsp | r8 | r9 | r10 | r11 | r12 | r13 | r14 | r15
deriving DecidableEq

abbrev Gprs := Gpr → Word

def Gprs.set (r : Gprs) (i : Gpr) (v : Word) : Gprs := fun j => if j = i then v else r j

/-- SIGKILL and SIGSTOP as bits of a `sigset_t`. -/
def unblockable : Word := 0x40100

/-- The signals a process blocks, which the kernel keeps free of these two. -/
structure SigMask where
  bits : Word
  lawful : bits &&& unblockable = 0

def SigMask.of (bits : Word) : SigMask where
  bits := bits &&& ~~~unblockable
  lawful := by
    rw [BitVec.and_assoc, BitVec.and_comm (~~~unblockable), BitVec.and_not_self]
    simp

/-- The state of one thread: general registers, flags, memory and its signal mask. -/
structure Cpu where
  regs : Gprs
  rip : Word
  rflags : Word
  mem : Memory 64
  mask : SigMask

/-- The flags of `cmp a, b` over the old ones: CF, PF, AF, ZF, SF and OF. -/
def cmpFlags (a b old : Word) : Word :=
  let r := a - b
  (old &&& ~~~0x8d5) ||| (if a < b then 0x1 else 0) |||
    (if (List.range 8).foldl (fun p i => p ^^ r.getLsbD i) true then 0x4 else 0) |||
    ((a ^^^ b ^^^ r) &&& 0x10) ||| (if r = 0 then 0x40 else 0) ||| (if r.msb then 0x80 else 0) |||
    (if a.msb ≠ b.msb ∧ r.msb ≠ a.msb then 0x800 else 0)

/-- ZF. -/
def Cpu.zf (c : Cpu) : Bool := c.rflags.getLsbD 6

/-- Instructions that go on with the next one. An address is a register and a displacement. -/
inductive Op
  | mov (dst src : Gpr)
  | movImm (dst : Gpr) (v : Word)
  | load (dst base : Gpr) (disp : Word)
  | store (base : Gpr) (disp : Word) (src : Gpr)
  | lea (dst base : Gpr) (disp : Word)
  | push (src : Gpr)
  | pop (dst : Gpr)
  | cmp (a : Gpr) (b : Word)
deriving DecidableEq

def Op.eval (c : Cpu) : Op → Cpu
  | .mov dst src => { c with regs := c.regs.set dst (c.regs src) }
  | .movImm dst v => { c with regs := c.regs.set dst v }
  | .load dst base disp => { c with regs := c.regs.set dst (Lib.load 8 c.mem (c.regs base + disp)) }
  | .store base disp src => { c with mem := Lib.store 8 c.mem (c.regs base + disp) (c.regs src) }
  | .lea dst base disp => { c with regs := c.regs.set dst (c.regs base + disp) }
  | .push src =>
    { c with
      regs := c.regs.set .rsp (c.regs .rsp - 8)
      mem := Lib.store 8 c.mem (c.regs .rsp - 8) (c.regs src) }
  | .pop dst =>
    { c with
      regs := (c.regs.set .rsp (c.regs .rsp + 8)).set dst (Lib.load 8 c.mem (c.regs .rsp)) }
  | .cmp a b => { c with rflags := cmpFlags (c.regs a) b c.rflags }

/-- Instructions with labels for their targets. -/
inductive Instr (ℓ : Type)
  | op (o : Op)
  | syscall
  | call (l : ℓ)
  | jne (l : ℓ)
  | ret
deriving DecidableEq

def SYS_rt_sigprocmask : Word := 14
def EINVAL : Word := 22

/-- The mask `how` makes of `mask` and the set at `set`. -/
def newMask (how set : Word) (m : Memory 64) (mask : SigMask) : Option SigMask :=
  let given := SigMask.of (Lib.load 8 m set)
  if set = 0 then some mask
  else if how.setWidth 32 = (0 : BitVec 32) then some (.of (mask.bits ||| given.bits))
  else if how.setWidth 32 = (1 : BitVec 32) then some (.of (mask.bits &&& ~~~given.bits))
  else if how.setWidth 32 = (2 : BitVec 32) then some given
  else none

/-- The system call `rt_sigprocmask`: its result, memory and the mask after it. -/
def rtSigprocmask (how set oset size : Word) (m : Memory 64) (mask : SigMask) :
    Word × Memory 64 × SigMask :=
  if size ≠ 8 then (-EINVAL, m, mask)
  else
    match newMask how set m mask with
    | none => (-EINVAL, m, mask)
    | some mask' => (0, if oset = 0 then m else Lib.store 8 m oset mask.bits, mask')

/-- A loaded program: where its labels are, the instruction at each address with the
address behind it, and what system calls other than `rt_sigprocmask` do. -/
structure Image (ℓ : Type) where
  symbols : ℓ → Word
  fetch : Word → Option (Instr ℓ × Word)
  kernel : Cpu → Word × Memory 64 × SigMask

section
variable {ℓ : Type} (M : Image ℓ)

def Image.sysenter (c : Cpu) : Word × Memory 64 × SigMask :=
  if c.regs .rax = SYS_rt_sigprocmask then
    rtSigprocmask (c.regs .rdi) (c.regs .rsi) (c.regs .rdx) (c.regs .r10) c.mem c.mask
  else M.kernel c

/-- One instruction; `next` is the address behind it. -/
def Image.exec (c : Cpu) (next : Word) : Instr ℓ → Cpu
  | .op o => { o.eval c with rip := next }
  | .syscall =>
    let r := M.sysenter c
    { c with
      regs := ((c.regs.set .rax r.1).set .rcx next).set .r11 c.rflags
      rip := next, mem := r.2.1, mask := r.2.2 }
  | .call l =>
    { c with
      regs := c.regs.set .rsp (c.regs .rsp - 8)
      rip := M.symbols l, mem := Lib.store 8 c.mem (c.regs .rsp - 8) next }
  | .jne l => { c with rip := if c.zf then next else M.symbols l }
  | .ret =>
    { c with
      regs := c.regs.set .rsp (c.regs .rsp + 8), rip := Lib.load 8 c.mem (c.regs .rsp) }

def Image.step (c : Cpu) : Option Cpu := (M.fetch c.rip).map fun i => M.exec c i.2 i.1

end

def Image.run (M : Image ℓ) : Nat → Cpu → Option Cpu
  | 0, c => some c
  | n + 1, c => (M.step c).bind (M.run n)

section Rules
variable {ℓ : Type} {M : Image ℓ} {c c' c'' : Cpu}

@[simp] theorem Gprs.set_self (r : Gprs) (i : Gpr) (v : Word) : r.set i v i = v := by
  simp [set]

theorem Gprs.set_other (r : Gprs) {i j : Gpr} (v : Word) (h : j ≠ i) : r.set i v j = r j := by
  simp [set, h]

/-- A mask the kernel keeps is not changed by what it takes out of a new one. -/
@[simp] theorem SigMask.of_bits (s : SigMask) : SigMask.of s.bits = s := by
  obtain ⟨bits, lawful⟩ := s
  have hb : bits &&& ~~~unblockable = bits := by
    apply BitVec.eq_of_getLsbD_eq
    intro i hi
    have hl := congrArg (fun b : Word => b.getLsbD i) lawful
    simp only [BitVec.getLsbD_and] at hl
    simp only [BitVec.getLsbD_and, BitVec.getLsbD_not, hi, decide_true, Bool.true_and]
    cases hbit : bits.getLsbD i <;> simp_all
  simp [SigMask.of, hb]

@[simp] theorem cmpFlags_zf (a b old : Word) : (cmpFlags a b old)[6] = decide (a = b) := by
  have hbit : ∀ (p : Prop) [Decidable p] (u : Word),
      (if p then u else 0)[6] = (decide p && u[6]) := by
    intro p _ u
    split <;> simp_all
  have hr : a - b = 0 ↔ a = b := sub_eq_zero
  simp only [cmpFlags, BitVec.getElem_or, hbit, hr]
  simp

def Image.Steps (M : Image ℓ) (c c' : Cpu) : Prop := ∃ n, M.run n c = some c'

theorem Image.Steps.refl (c : Cpu) : M.Steps c c := ⟨0, rfl⟩

theorem run_add {n k : Nat} (h : M.run n c = some c') : M.run (n + k) c = M.run k c' := by
  induction n generalizing c with
  | zero =>
    cases h
    rw [Nat.zero_add]
  | succ n ih =>
    obtain ⟨c₁, hs, hr⟩ := Option.bind_eq_some_iff.mp h
    rw [Nat.add_right_comm, Image.run, hs, Option.bind_some]
    exact ih hr

theorem Image.Steps.trans (h : M.Steps c c') (h' : M.Steps c' c'') : M.Steps c c'' := by
  obtain ⟨n, hn⟩ := h
  obtain ⟨k, hk⟩ := h'
  exact ⟨n + k, by rw [run_add hn, hk]⟩

theorem Image.Steps.fetched {i : Instr ℓ} {next : Word} (h : M.fetch c.rip = some (i, next)) :
    M.Steps c (M.exec c next i) := ⟨1, by simp [Image.run, Image.step, h]⟩

end Rules

end UnixProgramming.Libmini
