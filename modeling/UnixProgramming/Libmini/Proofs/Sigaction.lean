import UnixProgramming.Libmini.Sigaction

namespace UnixProgramming.Libmini.Proofs
open Lib

/-! ## Runs of calls -/

/-- A call, with the memory the program has made since the one before and where the locals lie. -/
inductive SigCall
  | sigaction (s : Space) (nact : Word) (sig : CInt) (act oact : Word)
  | signal (s : Space) (act oact nact : Word) (signum : CInt) (handler : Word)

/-- What the caller sees of a call: the result, `errno`, and the action at `oact`. -/
inductive Answer
  | sigaction (ret : CInt) (errno : Word) (old : Option Action)
  | signal (ret errno : Word)

/-- The process has the memory that the call uses. -/
def SigCall.Proper : SigCall → Prop
  | .sigaction s nact _ act oact =>
    s.Writes nact 32 ∧ s.Reads act 32 ∧ (oact = 0 ∨ s.Writes oact 32)
  | .signal s act oact nact _ _ => s.Writes nact 32 ∧ s.Writes act 32 ∧ s.Writes oact 32

section
variable (rtSigaction : RtSigaction) (sigrestore : Word)

def SigCall.exec : SigCall → SigProc → Option (Answer × SigProc)
  | .sigaction s nact sig act oact, p =>
    (Libmini.sigaction rtSigaction sigrestore nact sig act oact { p with space := s }).map fun r =>
      (.sigaction r.1 r.2.errno
        (if r.1 = 0 ∧ oact ≠ 0 then some (loadAction r.2.space.bytes oact) else none), r.2)
  | .signal s act oact nact signum handler, p =>
    (Libmini.signal rtSigaction sigrestore act oact nact signum handler
      { p with space := s }).map fun r => (.signal r.1 r.2.errno, r.2)

end

/-! ## What they are for -/

/-- The actions that have been given, the last one first. -/
abbrev History := List (CInt × Action)

/-- The action given last for a signal. -/
def History.action (h : History) (sig : CInt) : Action :=
  match h.find? fun x => x.1 = sig with
  | none => ⟨SIG_DFL, 0, 0, 0⟩
  | some x => x.2

/-- The kernel has the actions of `h`, as it keeps them. -/
def History.Kept (h : History) (t : Actions) : Prop := ∀ sig, (h.action sig).Keeps (t sig)

def SigCall.sig : SigCall → CInt
  | .sigaction _ _ sig _ _ => sig
  | .signal _ _ _ _ signum _ => signum

section
variable (sigrestore : Word)

/-- An action as the library hands it on. -/
def Action.restoring (a : Action) : Action :=
  { a with sa_flags := a.sa_flags ||| SA_RESTORER, sa_restorer := sigrestore }

/-- The action `signal` asks for. -/
def signalAction (signum : CInt) (handler : Word) : Action :=
  ⟨handler, if signum = SIGALRM then SA_INTERRUPT else SA_RESTART, sigrestore, 0⟩

def SigCall.given : SigCall → Action
  | .sigaction s _ _ act _ => loadAction s.bytes act
  | .signal _ _ _ _ signum handler => signalAction sigrestore signum handler

def SigCall.recorded (h : History) (c : SigCall) : History :=
  if Catchable c.sig then (c.sig, Action.restoring sigrestore (c.given sigrestore)) :: h else h

/-- What a call may answer. -/
def SigCall.Answers (h : History) : SigCall → Answer → Prop
  | .sigaction _ _ sig _ oact, .sigaction ret errno old =>
    if Catchable sig then
      ret = 0 ∧ errno = 0 ∧ (old.isSome ↔ oact ≠ 0) ∧ ∀ a ∈ old, (h.action sig).Keeps a
    else ret = -1 ∧ errno = EINVAL ∧ old = none
  | .signal _ _ _ _ signum _, .signal ret errno =>
    if Catchable signum then ret = (h.action signum).sa_handler ∧ errno = 0
    else ret = SIG_ERR ∧ errno = EINVAL
  | _, _ => False

/-- What the calls of a run may answer, one after the other. -/
inductive Answered : History → List SigCall → List Answer → Prop
  | nil (h : History) : Answered h [] []
  | cons {h : History} {c : SigCall} {a : Answer} {cs : List SigCall} {as : List Answer}
      (head : c.Answers h a) (tail : Answered (c.recorded sigrestore h) cs as) :
      Answered h (c :: cs) (a :: as)

/-- A signal that is caught returns through `sigrestore`. -/
def Armed (t : Actions) : Prop :=
  ∀ sig, (t sig).sa_handler ≠ SIG_DFL → (t sig).sa_handler ≠ SIG_IGN →
    (t sig).sa_flags &&& SA_RESTORER ≠ 0 ∧ (t sig).sa_restorer = sigrestore

end

/-! ## Actions in memory -/

section Memory
variable (m : Memory 64) (p : Word) (a : Action)

end Memory

/-! ## One call -/

section Call
variable {rtSigaction : RtSigaction} {sigrestore : Word} {h : History} {p : SigProc} {sig : CInt}
  {act oact nact : Word} {t : Actions}

end Call

/-! ## Runs -/

section Run
variable {rtSigaction : RtSigaction} {sigrestore : Word} {h : History}

end Run

namespace Demo

def space (b : Byte) : Space where
  bytes _ := b
  readable a := a ≠ 0
  writable a := a ≠ 0
  null := rfl
  le _ := id

end Demo

end UnixProgramming.Libmini.Proofs
