import UnixProgramming.Lib.SetOps
import UnixProgramming.Libmini.Cpu

namespace UnixProgramming.Libmini
open Lib

/-- `int`. -/
abbrev CInt := BitVec 32

/-- `sigset_t`. -/
abbrev SigSet := Word

def NSIG : CInt := 29

/-- The shift is one of an `unsigned int`, which C defines for the signals 1 to 32. -/
def sigmask (sig : CInt) : CInt := 1#32 <<< (sig - 1)

def sigemptyset (_ : SigSet) : SigSet := 0

def sigfillset (_ : SigSet) : SigSet := (sigmask NSIG - 1).signExtend 64

def sigaddset (set : SigSet) (sig : CInt) : SigSet := set ||| (sigmask sig).signExtend 64

/-- The complement is taken of an `int`. -/
def sigdelset (set : SigSet) (sig : CInt) : SigSet := set &&& (~~~sigmask sig).signExtend 64

def sigismember (set : SigSet) (sig : CInt) : CInt :=
  if set &&& (sigmask sig).signExtend 64 ≠ 0 then 1 else 0

/-- A signal from 1 to `n`. -/
structure Signal (n : Nat) where
  num : CInt
  pos : 1 ≤ num.toNat
  le : num.toNat ≤ n
deriving DecidableEq

/-- One of the macros that change a set, used on it. -/
def SigSet.step {n : Nat} (set : SigSet) : SetOp (Signal n) → SigSet
  | .clear => sigemptyset set
  | .add sig => sigaddset set sig.num
  | .remove sig => sigdelset set sig.num

end UnixProgramming.Libmini
