import UnixProgramming.Fsmon.Process

namespace UnixProgramming.Fsmon

/-- The descriptors of a process and the streams on them. Open files are numbered as they are
made. -/
structure Proc where
  table : Nat → Option Nat
  limit : Nat
  opened : Nat
  streams : Int → Option Int
  nextStream : Int
  monitorOutput : Option String
  /-- The open file of each line that `dprintf` has written. -/
  written : List Nat

/-- The open file of a descriptor. -/
def Proc.fileAt (p : Proc) (fd : Int) : Option Nat := if 0 ≤ fd then p.table fd.toNat else none

/-- The lowest free descriptor. -/
def Proc.lowest (p : Proc) : Option Nat :=
  (List.range p.limit).find? fun d => (p.table d).isNone

def Proc.put (p : Proc) (d : Nat) (f : Option Nat) : Proc :=
  { p with table := fun k => if k = d then f else p.table k }

/-- `fileno`. -/
def Proc.filenoOf (p : Proc) (stream : Int) : Int := (p.streams stream).getD (-1)

theorem Proc.fileAt_put (p : Proc) (d : Nat) (f : Option Nat) (fd : Int) :
    (p.put d f).fileAt fd = if fd = d then f else p.fileAt fd := by
  unfold fileAt put
  by_cases hfd : 0 ≤ fd
  · simp only [hfd, if_true]
    have hiff : fd.toNat = d ↔ fd = d := by omega
    simp only [hiff]
  · have hne : fd ≠ d := by omega
    simp [hfd, hne]

/-- What else decides a call: whether a path can be opened, the errors, what lies in a buffer of
`stat` or of `readlink`, and all that is not about descriptors. -/
structure Kernel where
  refuses : Call → Proc → Bool
  error : Call → Proc → Int
  stat : Int → Proc → Int × Int
  string : Int → Proc → Option String
  other : Call → Proc → Int × String × Option Int

/-- The descriptor that a call puts an open file at, and the file. -/
def Kernel.place (K : Kernel) (p : Proc) (c : Call) : Option (Nat × Nat) :=
  match c with
  | .open .. | .creat .. | .fopen .. =>
    if K.refuses c p then none else p.lowest.map fun d => (d, p.opened)
  | .dup fildes =>
    match p.fileAt fildes with
    | none => none
    | some f => p.lowest.map fun d => (d, f)
  | .dup2 fildes fildes2 =>
    match p.fileAt fildes with
    | none => none
    | some f => if 0 ≤ fildes2 ∧ fildes2 < p.limit then some (fildes2.toNat, f) else none
  | _ => none

/-- A call that fails with `ret`. -/
def Kernel.fail (K : Kernel) (p : Proc) (c : Call) (ret : Int) : Reply Proc :=
  ⟨ret, "", some (K.error c p), p⟩

/-- The kernel's own part of `close`. -/
def Kernel.closeAt (K : Kernel) (p : Proc) (c : Call) (fd : Int) : Reply Proc :=
  if (p.fileAt fd).isNone then K.fail p c (-1) else ⟨0, "", none, p.put fd.toNat none⟩

/-- The calls that concern the table of descriptors, and `dprintf`. -/
def Kernel.real (K : Kernel) (c : Call) (p : Proc) : Reply Proc :=
  match c with
  | .open .. | .creat .. =>
    match K.place p c with
    | none => K.fail p c (-1)
    | some (d, f) => ⟨d, "", none, { p.put d (some f) with opened := p.opened + 1 }⟩
  | .fopen .. =>
    match K.place p c with
    | none => K.fail p c 0
    | some (d, f) => ⟨p.nextStream, "", none,
        { p.put d (some f) with
          opened := p.opened + 1
          streams := fun s => if s = p.nextStream then some d else p.streams s
          nextStream := p.nextStream + 1 }⟩
  | .dup _ | .dup2 _ _ =>
    match K.place p c with
    | none => K.fail p c (-1)
    | some (d, f) => ⟨d, "", none, p.put d (some f)⟩
  | .close fildes => K.closeAt p c fildes
  | .fclose stream =>
    match p.streams stream with
    | none => K.fail p c (-1)
    | some fd =>
      let r := K.closeAt p c fd
      { r with world.streams := fun s => if s = stream then none else p.streams s }
  | .fileno stream =>
    if (p.streams stream).isNone then K.fail p c (-1) else ⟨p.filenoOf stream, "", none, p⟩
  | .dprintf fd _ _ =>
    match p.fileAt fd with
    | none => K.fail p c (-1)
    | some f => ⟨(K.other c p).1, "", none, { p with written := p.written ++ [f] }⟩
  | c => ⟨(K.other c p).1, (K.other c p).2.1, (K.other c p).2.2, p⟩

/-- libc on such a kernel; the streams 1, 2 and 3 are `stdin`, `stdout` and `stderr`. -/
def Kernel.libc (K : Kernel) : Libc Proc where
  real := K.real
  getenv name p := if name = "MONITOR_OUTPUT" then p.monitorOutput else none
  stMode statBuf p := (K.stat statBuf p).1
  stSize statBuf p := (K.stat statBuf p).2
  string := K.string
  stderr := 3
  path := 4
  name := 5

end UnixProgramming.Fsmon
