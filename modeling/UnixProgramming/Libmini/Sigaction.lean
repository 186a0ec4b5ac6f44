import UnixProgramming.Libmini.Calls

namespace UnixProgramming.Libmini
open Lib

def SA_RESTORER : Word := 0x04000000
def SA_RESTART : Word := 0x10000000
def SA_INTERRUPT : Word := 0x20000000
def SA_NODEFER : Word := 0x40000000
def SA_RESETHAND : Word := 0x80000000

def SIGKILL : CInt := 9
def SIGALRM : CInt := 14
def SIGSTOP : CInt := 19

def SIG_ERR : Word := -1
def SIG_DFL : Word := 0
def SIG_IGN : Word := 1

/-- `struct sigaction`, which the kernel has in the same form. -/
structure Action where
  sa_handler : Word
  sa_flags : Word
  sa_restorer : Word
  sa_mask : SigSet

def Action.words (a : Action) : List Word := [a.sa_handler, a.sa_flags, a.sa_restorer, a.sa_mask]

def loadAction (m : Memory 64) (p : Word) : Action :=
  ⟨load 8 m p, load 8 m (p + 8), load 8 m (p + 16), load 8 m (p + 24)⟩

def storeAction (m : Memory 64) (p : Word) (a : Action) : Memory 64 := fill 8 m p a.words

/-- The actions the kernel keeps for the signals of a process. -/
abbrev Actions := CInt → Action

def Actions.set (t : Actions) (sig : CInt) (a : Action) : Actions :=
  fun k => if k = sig then a else t k

def SIGMAX : Nat := 64

/-- The signals that can be given an action. -/
def Catchable (sig : CInt) : Prop :=
  (1 ≤ sig.toInt ∧ sig.toInt ≤ SIGMAX) ∧ sig ≠ SIGKILL ∧ sig ≠ SIGSTOP

instance (sig : CInt) : Decidable (Catchable sig) := by unfold Catchable; infer_instance

/-- The memory of a process: its bytes, and which of them it may read and write. -/
structure Space where
  bytes : Memory 64
  readable : Word → Bool
  writable : Word → Bool
  null : readable 0 = false
  le : ∀ a, writable a → readable a

section
variable (s : Space) (p : Word) (n : Nat)

def Space.Reads : Prop := ∀ i < n, s.readable (p + BitVec.ofNat 64 i)

def Space.Writes : Prop := ∀ i < n, s.writable (p + BitVec.ofNat 64 i)

instance : Decidable (s.Reads p n) := inferInstanceAs (Decidable (∀ i < n, _))

instance : Decidable (s.Writes p n) := inferInstanceAs (Decidable (∀ i < n, _))

end

def Space.store (s : Space) (p : Word) (a : Action) : Space :=
  { s with bytes := storeAction s.bytes p a }

section
variable {s : Space} {p q : Word} {a : Action} {n : Nat}

theorem Space.Writes.reads (h : s.Writes p n) : s.Reads p n := fun i hi => s.le _ (h i hi)

theorem Space.Reads.not_null (h : s.Reads p 32) : p ≠ 0 := by
  rintro rfl
  have first : s.readable (0 + BitVec.ofNat 64 0) = true := h 0 (by omega)
  rw [BitVec.add_zero, s.null] at first
  cases first

end

/-! ## The system call -/

/-- `rt_sigaction` of the kernel: for a signal, `act`, `oact` and the size of a set, with memory
and actions as they are, its result and what they are after it. -/
abbrev RtSigaction :=
  CInt → Word → Word → Word → Space → Actions → Word × Memory 64 × Actions

/-- The flags that every kernel knows. One it does not know may be lost, such as SA_INTERRUPT. -/
def SA_KNOWN : Word := 0xdc000007

/-- What the kernel keeps of the action `a` may be `b`. -/
structure Action.Keeps (a b : Action) : Prop where
  handler : b.sa_handler = a.sa_handler
  restorer : b.sa_restorer = a.sa_restorer
  known : b.sa_flags &&& SA_KNOWN = a.sa_flags &&& SA_KNOWN
  given : b.sa_flags &&& ~~~a.sa_flags = 0
  mask : b.sa_mask = (SigMask.of a.sa_mask).bits

/-- What is documented of `rt_sigaction` for memory that the process has: it gives the signal the
action at `act` and tells the one there was, or refuses the signal. -/
structure RtSigaction.Lawful (rtSigaction : RtSigaction) : Prop where
  taken {sig : CInt} {act oact : Word} {s : Space} (t : Actions) (catchable : Catchable sig)
      (reads : s.Reads act 32) (writes : oact = 0 ∨ s.Writes oact 32) :
    ∃ m b, rtSigaction sig act oact 8 s t = (0, m, t.set sig b) ∧
      (loadAction s.bytes act).Keeps b ∧ (oact ≠ 0 → loadAction m oact = t sig)
  refused {sig : CInt} {act oact : Word} {s : Space} (t : Actions) (uncatchable : ¬Catchable sig)
      (reads : s.Reads act 32) (writes : oact = 0 ∨ s.Writes oact 32) :
    rtSigaction sig act oact 8 s t = (-EINVAL, s.bytes, t)

/-! ## The library -/

/-- A process as the functions for signals see it. -/
structure SigProc where
  space : Space
  errno : Word
  actions : Actions

/-- `RET_WRAP(int, -1)`. -/
def SigProc.wrap (p : SigProc) (ret : Word) : CInt × SigProc :=
  if ret.slt 0 then (-1, { p with errno := -ret }) else (toInt ret, { p with errno := 0 })

section
variable (rtSigaction : RtSigaction) (sigrestore : Word)

/-- `sigaction`, with its local `nact` at the address of this name. `none` is an access to memory
that is not there. -/
def sigaction (nact : Word) (sig : CInt) (act oact : Word) (p : SigProc) :
    Option (CInt × SigProc) :=
  if ¬(p.space.Reads act 32 ∧ p.space.Writes nact 32) then none
  else
    let a := loadAction p.space.bytes act
    let s := p.space.store nact
      { a with sa_flags := a.sa_flags ||| SA_RESTORER, sa_restorer := sigrestore }
    let r := rtSigaction sig nact oact 8 s p.actions
    some (SigProc.wrap { p with space := { s with bytes := r.2.1 }, actions := r.2.2 } r.1)

/-- `signal`, with its locals `act` and `oact` and the one of `sigaction`. What the restorer of
`act` is has not been set. -/
def signal (act oact nact : Word) (signum : CInt) (handler : Word) (p : SigProc) :
    Option (Word × SigProc) :=
  if ¬(p.space.Writes act 32 ∧ p.space.Writes oact 32) then none
  else
    let flags := 0 ||| (if signum = SIGALRM then SA_INTERRUPT else SA_RESTART)
    let s := p.space.store act ⟨handler, flags, load 8 p.space.bytes (act + 16),
      sigemptyset (load 8 p.space.bytes (act + 24))⟩
    match sigaction rtSigaction sigrestore nact signum act oact { p with space := s } with
    | none => none
    | some (r, p) =>
      if r.slt 0 then some (SIG_ERR, p) else some (load 8 p.space.bytes oact, p)

end

end UnixProgramming.Libmini
