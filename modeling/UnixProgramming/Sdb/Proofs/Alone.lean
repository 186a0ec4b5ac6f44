import UnixProgramming.Sdb.Proofs.Transparency

namespace UnixProgramming.Sdb.Proofs
open Lib

section Programs
variable {η : Type} {T : Isa η} {p p' q : Prog η} {s : List Word} {r : Prog η ⊕ Byte}
  {v v' : View η} {a : Act η} {code : Option Byte}

end Programs

section Requests
variable {η : Type} {T : Isa η} {fuel : Nat} {B : Host (Machine η)} {w w' : World (Machine η)}
  {i : Input (Machine η)}

/-- The processes that are still to be made are the same. -/
def SameForks (w w' : World (Machine η)) : Prop :=
  w'.os.spawns = w.os.spawns ∧ w'.os.forks = w.os.forks

theorem Waited.forks {f : Child η → Child η} {e : Halted η} (h : Waited w f e w') :
    SameForks w w' := by
  unfold SameForks
  cases h with
  | stop s c w' dbg os calls =>
    rw [os]
    exact ⟨rfl, rfl⟩
  | exit code w' dbg os calls =>
    rw [os]
    exact ⟨rfl, rfl⟩
  | killed s dumped w' dbg os calls =>
    rw [os]
    exact ⟨rfl, rfl⟩

theorem Conted.forks {c : Child η} (h : Conted T fuel w c w') : SameForks w w' := by
  obtain ⟨s, c₁, w₁, e, _, hw₁, _, hw'⟩ := h
  exact ⟨hw'.forks.1.trans hw₁.forks.1, hw'.forks.2.trans hw₁.forks.2⟩

theorem Started.forks (h : Started T B w w') :
    w'.os.spawns = w.os.spawns ∧ w'.os.forks = w.os.forks + 1 := by
  cases h with
  | failed w' spawn dbg os calls =>
    rw [os]
    exact ⟨rfl, rfl⟩
  | ended pid fate st w' spawn dead dbg os calls =>
    rw [os]
    exact ⟨rfl, rfl⟩
  | ready pid regs hidden image ptext base w' spawn text bias dbg os calls =>
    rw [os]
    exact ⟨rfl, rfl⟩

/-- `p` is a state of the program that the last `fork` made a process of, run by itself. -/
def OwnRun (T : Isa η) (w : World (Machine η)) (p : Prog η) : Prop :=
  ∃ (pid : Nat) (p₀ : Prog η) (n : Nat),
    w.os.spawns (w.os.forks - 1) = some (pid, .ready p₀.regs p₀.hidden p₀.mem) ∧
      p₀.after T n = some p

theorem OwnRun.go {p q : Prog η} {n : Nat} (h : OwnRun T w p) (hq : p.after T n = some q) :
    OwnRun T w q := by
  obtain ⟨pid, p₀, k, hs, hp⟩ := h
  refine ⟨pid, p₀, k + n, hs, ?_⟩
  rw [after_add, hp, Option.bind_some, hq]

end Requests

end UnixProgramming.Sdb.Proofs
