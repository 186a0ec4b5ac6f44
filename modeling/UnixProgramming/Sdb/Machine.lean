import UnixProgramming.Sdb.Commands

namespace UnixProgramming.Sdb
open Lib

/-- The signals of Linux; `0` stands for number one. -/
abbrev Signal := Fin 64

def SIGTRAP : Signal := 4
def SIGKILL : Signal := 8

/-- The status of a child that has stopped, exited or died of a signal. -/
def stopStatus (s : Signal) : BitVec 32 := BitVec.ofNat 32 ((s.val + 1) * 256 + 0x7f)

def exitStatus (code : Byte) : BitVec 32 := BitVec.ofNat 32 (code.toNat * 256)

def killStatus (s : Signal) (core : Bool) : BitVec 32 :=
  BitVec.ofNat 32 (s.val + 1 + if core then 0x80 else 0)

/-- The effect of one instruction. Its writes to memory are a partial map. -/
inductive Outcome (η : Type)
  | next (regs : Regs) (hidden : η) (wrote : Word → Option Byte)
  | signal (s : Signal) (regs : Regs) (hidden : η) (wrote : Word → Option Byte)
  | exit (code : Byte)
  | killed (s : Signal) (core : Bool)

/-- A semantics of the tracee's instructions. `hidden` is all state that is neither
in the general registers nor in memory, the kernel's part of a system call included. -/
structure Isa (η : Type) where
  exec : Regs → η → Memory 64 → Outcome η
  length : Regs → η → Memory 64 → Nat
  reads : Regs → η → Memory 64 → Word → Bool
  maps : η → String
  /-- An instruction depends on no byte but its own and those it reads. -/
  local_ : ∀ {regs hidden m m'},
    (∀ x, offset (regs .rip) x < length regs hidden m ∨ reads regs hidden m x = true →
      m' x = m x) →
    exec regs hidden m' = exec regs hidden m

/-- A stopped or running tracee. `image` is its memory without what the debugger
wrote there, and `written` the bytes its own instructions have written. -/
structure Child (η : Type) where
  regs : Regs
  hidden : η
  mem : Memory 64
  image : Memory 64
  written : Word → Bool

/-- Memory after the writes of one instruction. -/
def putAll (wrote : Word → Option Byte) (m : Memory 64) : Memory 64 := fun x =>
  (wrote x).getD (m x)

def Child.after (c : Child η) (regs : Regs) (hidden : η) (wrote : Word → Option Byte) : Child η :=
  { regs, hidden
    mem := putAll wrote c.mem
    image := putAll wrote c.image
    written := fun x => (wrote x).isSome || c.written x }

inductive Halted (η : Type)
  | stop (s : Signal) (c : Child η)
  | exit (code : Byte)
  | killed (s : Signal) (core : Bool)

inductive Step (η : Type)
  | on (c : Child η)
  | halted (e : Halted η)

/-- The child after an instruction it goes on from. -/
def Step.went {η : Type} : Step η → Option (Child η)
  | .on c => some c
  | .halted _ => none

inductive Fate (η : Type)
  | ready (regs : Regs) (hidden : η) (image : Memory 64)
  | exited (code : Byte)
  | killed (s : Signal) (core : Bool)

/-- A child the debugger has not reaped. -/
inductive Proc (η : Type)
  | embryo (fate : Fate η)
  | stopped (c : Child η)
  | resumed (how : Resume) (c : Child η)
  | zombie (status : BitVec 32)

/-- The kernel as far as the debugger's child goes: its pid, the child unless it is
reaped, and what each further `fork` brings. -/
structure Machine (η : Type) where
  pid : Nat := 0
  proc : Option (Proc η) := none
  forks : Nat := 0
  spawns : Nat → Option (Nat × Fate η)

section
variable {η : Type} (T : Isa η)

/-- One instruction of the tracee; `0xcc` is the breakpoint instruction. -/
def Child.step (c : Child η) : Step η :=
  if c.mem (c.regs .rip) = 0xcc then
    .halted (.stop SIGTRAP { c with regs := c.regs.set .rip (c.regs .rip + 1) })
  else match T.exec c.regs c.hidden c.mem with
    | .next regs hidden wrote => .on (c.after regs hidden wrote)
    | .signal s regs hidden wrote => .halted (.stop s (c.after regs hidden wrote))
    | .exit code => .halted (.exit code)
    | .killed s core => .halted (.killed s core)

def Child.run : Nat → Child η → Option (Halted η)
  | 0, _ => none
  | n + 1, c =>
    match c.step T with
    | .on c => c.run n
    | .halted e => some e

/-- What a wait sees of a resumed child; `none` when it outlasts the fuel. -/
def Child.go (fuel : Nat) (c : Child η) : Resume → Option (Halted η)
  | .cont => c.run T fuel
  | .singlestep =>
    match c.step T with
    | .on c => some (.stop SIGTRAP c)
    | .halted e => some e

/-- The child that `ptrace` requests reach. -/
def Machine.child (m : Machine η) (pid : Int) : Option (Child η) :=
  match m.proc with
  | some (.stopped c) => if pid = m.pid then some c else none
  | _ => none

def Machine.put (m : Machine η) (c : Child η) : Machine η := { m with proc := some (.stopped c) }

/-- The machine after a `fork` and the wait for its child `c` to stop. -/
def Machine.spawned (m : Machine η) (pid : Nat) (c : Child η) : Machine η :=
  { m with forks := m.forks + 1, pid := pid, proc := some (.stopped c) }

def Machine.fork (m : Machine η) : Option Nat × Machine η :=
  match m.spawns m.forks with
  | none => (none, { m with forks := m.forks + 1 })
  | some (pid, fate) =>
    (some pid, { m with forks := m.forks + 1, pid := pid, proc := some (.embryo fate) })

def Machine.halt (m : Machine η) : Halted η → WaitResult × Machine η
  | .stop s c => (.status (stopStatus s), m.put c)
  | .exit code => (.status (exitStatus code), { m with proc := none })
  | .killed s core => (.status (killStatus s core), { m with proc := none })

/-- A fresh child stops once `execvp` has loaded the program. -/
def Fate.halted : Fate η → Halted η
  | .ready regs hidden image => .stop SIGTRAP ⟨regs, hidden, image, image, fun _ => false⟩
  | .exited code => .exit code
  | .killed s core => .killed s core

def Machine.waitpid (fuel : Nat) (pid : Int) (m : Machine η) : WaitResult × Machine η :=
  if pid ≠ m.pid then (.failed, m)
  else match m.proc with
    | none => (.failed, m)
    | some (.stopped _) => (.never, m)
    | some (.zombie status) => (.status status, { m with proc := none })
    | some (.embryo fate) => m.halt fate.halted
    | some (.resumed how c) =>
      match c.go T fuel how with
      | none => (.never, m)
      | some e => m.halt e

/-- `SIGKILL` to the child; a zombie keeps its status. -/
def Machine.kill (pid : Int) (m : Machine η) : Bool × Machine η :=
  match m.proc with
  | none => (false, m)
  | some p =>
    if pid ≠ m.pid then (false, m)
    else (true, { m with proc := some (match p with
      | .zombie status => .zombie status
      | _ => .zombie (killStatus SIGKILL false)) })

def Machine.resume (how : Resume) (pid : Int) (m : Machine η) : Machine η :=
  match m.child pid with
  | some c => { m with proc := some (.resumed how c) }
  | none => m

def Machine.peek (pid : Int) (addr : Word) (m : Machine η) : Word :=
  match m.child pid with
  | some c => load 8 c.mem addr
  | none => -1

def Machine.poke (pid : Int) (addr data : Word) (m : Machine η) : Bool × Machine η :=
  match m.child pid with
  | some c => (true, m.put { c with mem := store 8 c.mem addr data })
  | none => (false, m)

def Machine.setRegs (pid : Int) (regs : Regs) (m : Machine η) : Bool × Machine η :=
  match m.child pid with
  | some c => (true, m.put { c with regs := regs })
  | none => (false, m)

/-- A host whose process control is the machine and whose other services are those of `B`. -/
def machineHost (fuel : Nat) (B : Host (Machine η)) : Host (Machine η) :=
  { B with
    fork := fun _ _ => Machine.fork
    waitpid := Machine.waitpid T fuel
    kill := Machine.kill
    resume := Machine.resume
    peek := Machine.peek
    poke := Machine.poke
    getRegs := fun pid m => (m.child pid).map Child.regs
    setRegs := Machine.setRegs
    maps := fun pid m => (m.child pid).map fun c => T.maps c.hidden }

end

/-! A small tracee on x86-64, for concrete sessions. -/
namespace Demo

def SIGILL : Signal := 3

/-- What `/proc/pid/maps` shows, and how many instructions are left until somebody
sends `SIGKILL`, if anybody does. -/
structure Hidden where
  maps : String
  life : Option Nat := none

/-- `nop`, `mov eax, imm32` and `syscall` with `exit`; other system calls fail and
other bytes are not instructions. -/
def exec (regs : Regs) (hidden : Hidden) (m : Memory 64) : Outcome Hidden :=
  let rip := regs .rip
  let hidden' := { hidden with life := hidden.life.map (· - 1) }
  if hidden.life = some 0 then .killed SIGKILL false
  else if m rip = 0x90 then .next (regs.set .rip (rip + 1)) hidden' fun _ => none
  else if m rip = 0xb8 then
    .next ((regs.set .rax ((load 4 m (rip + 1)).setWidth 64)).set .rip (rip + 5)) hidden' fun _ => none
  else if m rip = 0x0f ∧ m (rip + 1) = 0x05 then
    if regs .rax = 60 then .exit ((regs .rdi).setWidth 8)
    else
      let regs := ((regs.set .rax (-38)).set .rcx (rip + 2)).set .r11 (regs .eflags)
      .next (regs.set .rip (rip + 2)) hidden' fun _ => none
  else .signal SIGILL regs hidden' fun _ => none

def length (first : Byte) : Nat := if first = 0x90 then 1 else if first = 0xb8 then 5 else 2

/-- An instruction of `exec` lies within its length. -/
theorem exec_local {regs : Regs} {hidden : Hidden} {m m' : Memory 64}
    (h : ∀ x, offset (regs .rip) x < length (m (regs .rip)) → m' x = m x) :
    exec regs hidden m' = exec regs hidden m := by
  have hi : ∀ i : Nat, i < 5 → i < length (m (regs .rip)) →
      m' (regs .rip + BitVec.ofNat 64 i) = m (regs .rip + BitVec.ofNat 64 i) := by
    intro i h5 hl
    apply h
    rwa [offset_add _ (by omega)]
  have h₀ : m' (regs .rip) = m (regs .rip) := by
    apply h
    rw [offset_self]
    unfold length
    split
    · omega
    · split <;> omega
  unfold exec
  by_cases hn : m (regs .rip) = 0x90
  · simp only [h₀, if_pos hn]
  · by_cases hm : m (regs .rip) = 0xb8
    · have hl : load 4 m' (regs .rip + 1) = load 4 m (regs .rip + 1) := by
        apply load_congr
        intro i h4
        have he : regs .rip + 1 + BitVec.ofNat 64 i = regs .rip + BitVec.ofNat 64 (i + 1) := by
          rw [BitVec.ofNat_add, BitVec.add_assoc, BitVec.add_comm (BitVec.ofNat 64 i)]
          rfl
        rw [he]
        exact hi (i + 1) (by omega) (by rw [length, if_neg hn, if_pos hm]; omega)
      simp only [h₀, hl, if_neg hn, if_pos hm]
    · have h₁ : m' (regs .rip + 1) = m (regs .rip + 1) :=
        hi 1 (by omega) (by rw [length, if_neg hn, if_neg hm]; omega)
      simp only [h₀, h₁, if_neg hm]

def isa : Isa Hidden where
  exec := exec
  length regs _ m := length (m (regs .rip))
  reads _ _ _ _ := false
  maps := Hidden.maps
  local_ h := exec_local fun x hx => h x (.inl hx)

/-- The same instructions for a child nobody sends a signal. -/
def unkilled : Isa Hidden where
  exec regs hidden := exec regs { hidden with life := none }
  length regs _ m := length (m (regs .rip))
  reads _ _ _ _ := false
  maps := Hidden.maps
  local_ h := exec_local fun x hx => h x (.inl hx)

/-- Memory that holds `bytes` at `org`. -/
def code (org : Word) (bytes : List Byte) : Memory 64 := fun x => bytes.getD (offset org x) 0

/-- The registers `execve` leaves. -/
def entry (rip : Word) : Regs := fun r => if r = .rip then rip else 0

/-- An ELF file with one section for the code and one for the section names. -/
def file (type : Nat) (segments : List Phdr) (text : Shdr) : ElfFile where
  ident := some 0x02
  ehdr := some ⟨type, segments.length, 3, 2, text.addr⟩
  phdrs := some fun i => segments.getD i ⟨0, 0, 0, 0, 0, 0, 0, 0⟩
  scns := [⟨1, some text⟩, ⟨2, some ⟨0, SHT_STRTAB, 0, 0, 0, 1, 0, 0, 1, 0⟩⟩]
  pread _ size := some (List.replicate size.toNat 0)

def segment (flags vaddr size : Word) : Phdr := ⟨PT_LOAD, vaddr, vaddr, vaddr, size, size, flags, 0x1000⟩

def text (addr size : Word) : Shdr :=
  ⟨1, SHT_PROGBITS, SHF_ALLOC ||| SHF_EXECINSTR, addr, addr, size, 0, 0, 16, 0⟩

/-- Services besides process control; every file is `f`. -/
def services (f : ElfFile) : Host (Machine Hidden) where
  list := Builtin.all
  registered := .refl _
  elf _ _ := some f
  alloc _ := ⟨fun _ => true, fun _ => ⟨0, 0, 0, 0, 0, 0, 0, 0, 0, 0⟩, fun _ => .null⟩
  fread _ _ n _ := some (List.replicate n 0)
  fork _ _ m := (none, m)
  waitpid _ m := (.failed, m)
  kill _ m := (false, m)
  resume _ _ m := m
  peek _ _ _ := 0
  poke _ _ _ m := (false, m)
  getRegs _ _ := none
  setRegs _ _ m := (false, m)
  maps _ _ := none
  csOpen _ := true
  csDisasm _ _ := []
  stackBegin _ := 0
  stackCode _ := List.replicate 256 0
  stackMaps _ := ⟨0, 0, 0, [], []⟩

def hostOf (T : Isa Hidden) (f : ElfFile) : Host (Machine Hidden) := machineHost T 64 (services f)

def host (f : ElfFile) : Host (Machine Hidden) := hostOf isa f

/-- A machine on which every child meets the same fate. -/
def machine (fate : Fate Hidden) : Machine Hidden where
  spawns _ := some (42, fate)

/-- A program of sixteen bytes linked at 0x401000. -/
def static : ElfFile :=
  file 2 [segment (PF_R ||| PF_X) 0x400000 0x2000] (text 0x401000 0x10)

def staticMaps : String := "00400000-00402000 r-xp 00000000 08:01 7 /tmp/demo\n"

/-- A child that runs `bytes`, to be killed after `life` instructions. -/
def program (bytes : List Byte) (life : Option Nat := none) : Fate Hidden :=
  .ready (entry 0x401000) ⟨staticMaps, life⟩ (code 0x401000 bytes)

/-- A position-independent program of sixteen bytes, linked at 0x1000 and mapped at `bias`. -/
def pie (segments : List Phdr) : ElfFile := file 3 segments (text 0x1000 0x10)

def bias : Word := 0x555555554000

def pieMaps : String := "555555554000-555555556000 r-xp 00000000 08:01 7 /tmp/demo\n"

def pieProgram (bytes : List Byte) : Fate Hidden :=
  .ready (entry (bias + 0x1000)) ⟨pieMaps, none⟩ (code (bias + 0x1000) bytes)

def nops : List Byte := List.replicate 16 0x90

/-- `mov eax, 60; syscall`: the program that exits with code 0. -/
def exits : List Byte := [0xb8, 60, 0, 0, 0, 0x0f, 0x05]

end Demo

end UnixProgramming.Sdb
