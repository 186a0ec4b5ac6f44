import UnixProgramming.Sdb.Machine

/-! The session as its user means it: a program that runs by itself and the addresses at
which it is to stop. No breakpoint is ever in the program's memory here. -/

namespace UnixProgramming.Sdb
open Lib

/-- A program by itself. -/
structure Prog (η : Type) where
  regs : Regs
  hidden : η
  mem : Memory 64

/-- The child without what the debugger wrote to its memory. -/
def Child.prog {η : Type} (c : Child η) : Prog η := ⟨c.regs, c.hidden, c.image⟩

section
variable {η : Type} (T : Isa η)

/-- The program after its next instruction, unless it ends there or gets a signal. -/
def Prog.next (p : Prog η) : Option (Prog η) :=
  if p.mem (p.regs .rip) = 0xcc then none
  else match T.exec p.regs p.hidden p.mem with
    | .next regs hidden wrote => some ⟨regs, hidden, putAll wrote p.mem⟩
    | _ => none

/-- The code with which the program's next instruction ends it. -/
def Prog.exits (p : Prog η) : Option Byte :=
  if p.mem (p.regs .rip) = 0xcc then none
  else match T.exec p.regs p.hidden p.mem with
    | .exit code => some code
    | _ => none

/-- The program after `n` instructions. -/
def Prog.after : Nat → Prog η → Option (Prog η)
  | 0, p => some p
  | n + 1, p => (p.next T).bind (after n)

/-- Where a program comes to that runs until one of the stops `s`: there, or to its end. -/
inductive Prog.Until (s : List Word) : Prog η → Prog η ⊕ Byte → Prop
  | stop (p : Prog η) (on : p.regs .rip ∈ s) : Until s p (.inl p)
  | exit (p : Prog η) (code : Byte) (off : p.regs .rip ∉ s) (ends : p.exits T = some code) :
      Until s p (.inr code)
  | next (p p' : Prog η) (r : Prog η ⊕ Byte) (off : p.regs .rip ∉ s)
      (step : p.next T = some p') (rest : Until s p' r) : Until s p r

/-- A breakpoint at `a` is no matter to the instruction at hand: it meets the byte there
only by starting on it, writes none of the eight bytes from `a` on, and does not end one
byte behind `a`, where `reset_rip` would take it for a trap. -/
structure Prog.Harmless (p : Prog η) (a : Word) : Prop where
  uncovered : offset (p.regs .rip) a < T.length p.regs p.hidden p.mem → a = p.regs .rip
  unread : T.reads p.regs p.hidden p.mem a = false
  unwritten : ∀ regs hidden wrote, T.exec p.regs p.hidden p.mem = .next regs hidden wrote →
    ∀ x, offset a x < 8 → wrote x = none
  unlike : ∀ p', p.next T = some p' → p'.regs .rip ≠ a + 1

/-- The program gets no signal as long as it runs, and breakpoints at `s` are no matter
to it. -/
structure Prog.Tame (s : List Word) (p : Prog η) : Prop where
  unsignalled : ∀ n q, p.after T n = some q → (q.next T).isSome ∨ (q.exits T).isSome
  harmless : ∀ n q, p.after T n = some q → ∀ a ∈ s, q.Harmless T a

end

/-- `marks` are the places in the file at which the program is to stop and `base` is
where the file has been mapped. -/
@[ext] structure View (η : Type) where
  stat : Stat
  marks : List Word
  base : Word
  prog : Option (Prog η)

section
variable {η : Type} (T : Isa η)

/-- The addresses at which the program stops. -/
def View.stops (v : View η) : List Word := v.marks.map (· + v.base)

/-- The session after its program has ended. -/
def View.ended (v : View η) : View η := { v with stat := .loaded, base := 0, prog := none }

/-- The session when its program has come to `r`. -/
def View.came (v : View η) : Prog η ⊕ Byte → View η
  | .inl p => { v with prog := some p }
  | .inr _ => v.ended

/-- The exit code to be reported. -/
def reported : Prog η ⊕ Byte → Option Byte
  | .inl _ => none
  | .inr code => some code

/-- What the user asks for. `start` and `run` come with the program that is loaded and
its base, if a process can be made of it. -/
inductive Act (η : Type)
  | look
  | place (addr : Word)
  | remove (addr : Word)
  | load
  | set (r : Reg) (value : Word)
  | si
  | cont
  | start (found : Option (Word × Prog η))
  | run (found : Option (Word × Prog η))
  | resume

/-- What each request means. The third argument is an exit code that is reported. -/
inductive View.Next : Act η → View η → Option Byte → View η → Prop
  | look (v : View η) : Next .look v none v
  | place (v : View η) (addr : Word) :
      Next (.place addr) v none { v with marks := v.marks ++ [addr - v.base] }
  | remove (v : View η) (addr : Word) :
      Next (.remove addr) v none { v with marks := v.marks.erase (addr - v.base) }
  | load (v : View η) (stat : Stat) (idle : stat ≠ .running) : Next .load v none ⟨stat, [], 0, none⟩
  | set (v : View η) (p : Prog η) (r : Reg) (value : Word) (runs : v.prog = some p) :
      Next (.set r value) v none { v with prog := some { p with regs := p.regs.set r value } }
  | si (v : View η) (p p' : Prog η) (runs : v.prog = some p) (step : p.next T = some p') :
      Next .si v none { v with prog := some p' }
  | ended (v : View η) (p : Prog η) (code : Byte) (runs : v.prog = some p)
      (ends : p.exits T = some code) : Next .si v (some code) v.ended
  | cont (v : View η) (p p' : Prog η) (r : Prog η ⊕ Byte) (runs : v.prog = some p)
      (step : p.next T = some p') (goes : p'.Until T v.stops r) : Next .cont v (reported r) (v.came r)
  | failed (v : View η) : Next (.start none) v none v
  | start (v : View η) (base : Word) (p : Prog η) :
      Next (.start (some (base, p))) v none { v with stat := .running, base := base, prog := some p }
  | stays (v : View η) (p : Prog η) (runs : v.prog = some p) (on : p.regs .rip ∈ v.stops) :
      Next .resume v none v
  | resume (v v' : View η) (p : Prog η) (code : Option Byte) (runs : v.prog = some p)
      (off : p.regs .rip ∉ v.stops) (goes : Next .cont v code v') : Next .resume v code v'
  | run (v v₁ v' : View η) (found : Option (Word × Prog η)) (code : Option Byte)
      (begins : Next (.start found) v none v₁) (goes : Next .resume v₁ code v') :
      Next (.run found) v code v'

/-- No two of the stops are within eight bytes of each other, and they are no matter to
the program. -/
structure View.Tame (v : View η) : Prop where
  apart : v.stops.Pairwise fun a a' => 8 ≤ offset a a' ∧ 8 ≤ offset a' a
  prog : ∀ p, v.prog = some p → p.Tame T v.stops

end

end UnixProgramming.Sdb
