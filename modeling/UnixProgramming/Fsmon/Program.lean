import UnixProgramming.Fsmon.Monitor

namespace UnixProgramming.Fsmon

/-- What a program has of a call: its result, and `errno` after it. -/
structure Outcome where
  value : Value
  errno : Int
deriving DecidableEq

/-- The calls a program has made, with what came of them. -/
abbrev History := List (Call × Outcome)

/-- A program: what it calls next, by what came of the calls before; `none` is its end. -/
abbrev Program := History → Option Call

section
variable {W : Type} (L : Libc W) (prog : Program)

/-- A call without the library, by a process with its `errno`. -/
def alone (c : Call) (s : W × Int) : Outcome × (W × Int) :=
  let r := L.real c s.1
  let errno := r.errno.getD s.2
  (⟨⟨r.ret, r.text⟩, errno⟩, (r.world, errno))

/-- At most `n` calls of a program without the library. -/
def runAlone : Nat → History → W × Int → History × (W × Int)
  | 0, h, s => (h, s)
  | n + 1, h, s =>
    match prog h with
    | none => (h, s)
    | some c => runAlone n (h ++ [(c, (alone L c s).1)]) (alone L c s).2

/-- The calls of such a run, each with the process that makes it. -/
def callsAlone : Nat → History → W × Int → List ((W × Int) × Call)
  | 0, _, _ => []
  | n + 1, h, s =>
    match prog h with
    | none => []
    | some c => (s, c) :: callsAlone n (h ++ [(c, (alone L c s).1)]) (alone L c s).2

/-- At most `n` calls of a program with the library in it; `none` if one of them does not
return. -/
def runWatched (depth : Nat) : Nat → History → Machine W → Option (History × Machine W)
  | 0, h, m => some (h, m)
  | n + 1, h, m =>
    match prog h with
    | none => some (h, m)
    | some c =>
      match invoke L depth c m with
      | .ok v m' => runWatched depth n (h ++ [(c, ⟨v, m'.errno⟩)]) m'
      | .error _ _ => none

end

end UnixProgramming.Fsmon
