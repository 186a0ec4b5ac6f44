import UnixProgramming.Lib.Text
import UnixProgramming.Lib.Wp
import UnixProgramming.Sdb.Elf

namespace UnixProgramming.Sdb
open Lib

/-- The fields of `user_regs_struct`. -/
inductive Reg
  | r15 | r14 | r13 | r12 | rbp | rbx | r11 | r10 | r9 | r8 | rax | rcx | rdx | rsi | rdi
  | orig_rax | rip | cs | eflags | rsp | ss | fs_base | gs_base | ds | es | fs | gs
deriving DecidableEq

abbrev Regs := Reg → Word

def Regs.set (r : Regs) (i : Reg) (v : Word) : Regs := fun j => if j = i then v else r j

@[simp] theorem Regs.set_self (r : Regs) (i : Reg) (v : Word) : r.set i v i = v := by
  simp [set]

/-- A register set and then set back. -/
@[simp] theorem Regs.set_back (r : Regs) (i : Reg) (v : Word) : (r.set i v).set i (r i) = r := by
  funext j
  by_cases h : j = i
  · simp [set, h]
  · simp [set, h]

/-- `stat`. -/
inductive Stat
  | init
  | loaded
  | running
deriving DecidableEq

/-- `break_pt_t`; the `next` pointers are the order of the list. -/
structure BreakPt where
  id : BitVec 32
  addr : Word
  code : Word
deriving DecidableEq

/-- `debugger_t` without its function pointers, which are set once. `ptext` and
`stext` point into the tables of `eh` and are kept as indices. -/
structure Debugger where
  program : String := ""
  stat : Stat := .init
  status : BitVec 32 := 0
  pid : Int := 0
  bpi : BitVec 32 := 0
  base : Word := 0
  ldump : Word := 0
  ldisasm : Word := 0
  eh : Option ElfHandle := none
  ptext : Option Nat := none
  stext : Option Nat := none
  bp : List BreakPt := []

/-- The segment `ptext` points to. -/
def Debugger.ptextHdr (d : Debugger) : Option Phdr := do
  (← (← d.eh).phdr)[← d.ptext]?

/-- The section `stext` points to. -/
def Debugger.stextHdr (d : Debugger) : Option Shdr := do
  (← (← d.eh).shdr)[← d.stext]?

/-- The registered commands. -/
inductive Builtin
  | load | «break» | delete | start | run | si | cont | get | getregs | set | dump | disasm
  | list | vmmap | help | exit
deriving DecidableEq

def Builtin.all : List Builtin :=
  [.load, .break, .delete, .start, .run, .si, .cont, .get, .getregs, .set, .dump, .disasm,
    .list, .vmmap, .help, .exit]

def Builtin.name : Builtin → String
  | .load => "load" | .break => "break" | .delete => "delete" | .start => "start"
  | .run => "run" | .si => "si" | .cont => "cont" | .get => "get" | .getregs => "getregs"
  | .set => "set" | .dump => "dump" | .disasm => "disasm" | .list => "list"
  | .vmmap => "vmmap" | .help => "help" | .exit => "exit"

/-- The second argument of `BUILDIN_REGESTER`, empty for five of the commands. -/
def Builtin.nick : Builtin → String
  | .break => "b" | .run => "r" | .cont => "c" | .get => "g" | .set => "s" | .dump => "x"
  | .disasm => "d" | .list => "l" | .vmmap => "m" | .help => "h" | .exit => "q"
  | .load | .delete | .start | .si | .getregs => ""

/-- One decoded instruction of `cs_disasm`. -/
structure Insn where
  address : Word
  bytes : List Byte
  text : String

inductive Arg
  | str (s : String)
  | word (w : Word)
  | int (n : Int)

/-- What the debugger prints. `msg` is a line on stderr behind `** `. -/
inductive Out
  | msg (fmt : String) (args : List Arg)
  | breakpoint
  | insn (i : Insn)
  | row (addr : Word) (bytes : List Byte) (text : List Byte)
  | bp (id : BitVec 32) (addr : Word)
  | reg (name : String) (value : Word)
  | regs (r : Regs)
  | mapping (begin_ end_ : Word) (perm : List Char) (offset : Word) (program : List Char)
  | help

/-- The functions that call `waitpid`. -/
inductive Site
  | start
  | cmd
  | stop
deriving DecidableEq

/-- Process control as it happens, the latest call first. A wait records the
status it stored, if it succeeded. -/
inductive Call
  | fork (pid : Option Nat)
  | wait (site : Site) (pid : Int) (status : Option (BitVec 32))
  | kill (pid : Int)

/-- The two requests `cmd` passes to `ptrace`. -/
inductive Resume
  | cont
  | singlestep
deriving DecidableEq

inductive WaitResult
  | failed
  | status (st : BitVec 32)
  | never

/-- The locals of `cmd_vmmap`. -/
structure MapsVars where
  begin_ : Word
  end_ : Word
  offset : Word
  perm : List Char
  program : List Char

/-- Everything outside the debugger: the kernel with the children in it, the
files, libelf, capstone, the memory no one has written yet, and the order in
which the constructors of the commands ran. -/
structure Host (σ : Type) where
  list : List Builtin
  registered : list.Perm Builtin.all
  elf : String → σ → Option ElfFile
  alloc : σ → Alloc
  fread : String → Int → Nat → σ → Option (List Byte)
  fork : String → List String → σ → Option Nat × σ
  waitpid : Int → σ → WaitResult × σ
  kill : Int → σ → Bool × σ
  resume : Resume → Int → σ → σ
  peek : Int → Word → σ → Word
  poke : Int → Word → Word → σ → Bool × σ
  getRegs : Int → σ → Option Regs
  setRegs : Int → Regs → σ → Bool × σ
  maps : Int → σ → Option String
  csOpen : σ → Bool
  csDisasm : List Byte → Word → List Insn
  stackBegin : σ → Word
  stackCode : σ → List Byte
  stackMaps : σ → MapsVars

/-- The debugger's record, the rest of the world, what was printed and the
process control so far (both latest first). -/
structure World (σ : Type) where
  dbg : Debugger
  os : σ
  out : List Out
  calls : List Call

abbrev DbgM (σ α : Type) := EStateM Halt (World σ) α

section Calls
variable {σ : Type} (H : Host σ)

def dbg : DbgM σ Debugger := fun w => .ok w.dbg w

def setDbg (f : Debugger → Debugger) : DbgM σ Unit := fun w => .ok () { w with dbg := f w.dbg }

def print (o : Out) : DbgM σ Unit := fun w => .ok () { w with out := o :: w.out }

/-- `ERRMSG`, and `ERRRET` where nothing follows. -/
def errmsg (fmt : String) (args : List Arg := []) : DbgM σ Unit := print (.msg fmt args)

def errquit (code : Int) (fmt : String) : DbgM σ α := do
  errmsg fmt
  throw (.exit code)

/-- An access through a pointer. -/
def deref (p : Option α) : DbgM σ α :=
  match p with
  | some a => pure a
  | none => throw .crash

/-- A value of the world outside that is only read. -/
def ask (f : σ → α) : DbgM σ α := fun w => .ok (f w.os) w

def sysFork (program : String) (argv : List String) : DbgM σ (Option Nat) := fun w =>
  let r := H.fork program argv w.os
  .ok r.1 { w with os := r.2, calls := .fork r.1 :: w.calls }

/-- `waitpid`: the status it stores, or `none` when it fails. -/
def sysWaitpid (site : Site) (pid : Int) : DbgM σ (Option (BitVec 32)) := fun w =>
  match H.waitpid pid w.os with
  | (.status st, os) => .ok (some st) { w with os := os, calls := .wait site pid (some st) :: w.calls }
  | (.failed, os) => .ok none { w with os := os, calls := .wait site pid none :: w.calls }
  | (.never, os) => .error .hang { w with os := os }

def sysKill (pid : Int) : DbgM σ Bool := fun w =>
  let r := H.kill pid w.os
  .ok r.1 { w with os := r.2, calls := .kill pid :: w.calls }

def ptraceResume (param : Resume) (pid : Int) : DbgM σ Unit := fun w =>
  .ok () { w with os := H.resume param pid w.os }

def ptracePeek (pid : Int) (addr : Word) : DbgM σ Word := ask (H.peek pid addr)

def ptracePoke (pid : Int) (addr data : Word) : DbgM σ Bool := fun w =>
  let r := H.poke pid addr data w.os
  .ok r.1 { w with os := r.2 }

def ptraceGetRegs (pid : Int) : DbgM σ (Option Regs) := ask (H.getRegs pid)

def ptraceSetRegs (pid : Int) (regs : Regs) : DbgM σ Bool := fun w =>
  let r := H.setRegs pid regs w.os
  .ok r.1 { w with os := r.2 }

end Calls

section CallRules
variable {σ α : Type} {H : Host σ} {E : Halt → World σ → Prop} {w : World σ}

@[simp] theorem wp_dbg {Q : Debugger → World σ → Prop} : Wp dbg Q E w ↔ Q w.dbg w := Iff.rfl

@[simp] theorem wp_setDbg {f : Debugger → Debugger} {Q : Unit → World σ → Prop} :
    Wp (setDbg f) Q E w ↔ Q () { w with dbg := f w.dbg } := Iff.rfl

@[simp] theorem wp_print {o : Out} {Q : Unit → World σ → Prop} :
    Wp (print o) Q E w ↔ Q () { w with out := o :: w.out } := Iff.rfl

@[simp] theorem wp_errmsg {fmt : String} {args : List Arg} {Q : Unit → World σ → Prop} :
    Wp (errmsg fmt args) Q E w ↔ Q () { w with out := .msg fmt args :: w.out } := Iff.rfl

@[simp] theorem wp_errquit {code : Int} {fmt : String} {Q : α → World σ → Prop} :
    Wp (errquit code fmt) Q E w ↔ E (.exit code) { w with out := .msg fmt [] :: w.out } := Iff.rfl

@[simp] theorem wp_deref_some {a : α} {Q : α → World σ → Prop} :
    Wp (deref (some a)) Q E w ↔ Q a w := Iff.rfl

@[simp] theorem wp_deref_none {Q : α → World σ → Prop} :
    Wp (deref none) Q E w ↔ E .crash w := Iff.rfl

@[simp] theorem wp_ask {f : σ → α} {Q : α → World σ → Prop} :
    Wp (ask f) Q E w ↔ Q (f w.os) w := Iff.rfl

@[simp] theorem wp_sysFork {program : String} {argv : List String}
    {Q : Option Nat → World σ → Prop} :
    Wp (sysFork H program argv) Q E w ↔ Q (H.fork program argv w.os).1
      { w with
        os := (H.fork program argv w.os).2
        calls := .fork (H.fork program argv w.os).1 :: w.calls } := Iff.rfl

@[simp] theorem wp_sysKill {pid : Int} {Q : Bool → World σ → Prop} :
    Wp (sysKill H pid) Q E w ↔ Q (H.kill pid w.os).1
      { w with os := (H.kill pid w.os).2, calls := .kill pid :: w.calls } := Iff.rfl

@[simp] theorem wp_ptraceResume {param : Resume} {pid : Int} {Q : Unit → World σ → Prop} :
    Wp (ptraceResume H param pid) Q E w ↔ Q () { w with os := H.resume param pid w.os } := Iff.rfl

@[simp] theorem wp_ptracePeek {pid : Int} {addr : Word} {Q : Word → World σ → Prop} :
    Wp (ptracePeek H pid addr) Q E w ↔ Q (H.peek pid addr w.os) w := Iff.rfl

@[simp] theorem wp_ptracePoke {pid : Int} {addr data : Word} {Q : Bool → World σ → Prop} :
    Wp (ptracePoke H pid addr data) Q E w ↔ Q (H.poke pid addr data w.os).1
      { w with os := (H.poke pid addr data w.os).2 } := Iff.rfl

@[simp] theorem wp_ptraceGetRegs {pid : Int} {Q : Option Regs → World σ → Prop} :
    Wp (ptraceGetRegs H pid) Q E w ↔ Q (H.getRegs pid w.os) w := Iff.rfl

@[simp] theorem wp_ptraceSetRegs {pid : Int} {regs : Regs} {Q : Bool → World σ → Prop} :
    Wp (ptraceSetRegs H pid regs) Q E w ↔ Q (H.setRegs pid regs w.os).1
      { w with os := (H.setRegs pid regs w.os).2 } := Iff.rfl

theorem wp_wait_status {site : Site} {pid : Int} {Q : Option (BitVec 32) → World σ → Prop}
    {st : BitVec 32} {os : σ} (h : H.waitpid pid w.os = (.status st, os)) :
    Wp (sysWaitpid H site pid) Q E w ↔
      Q (some st) { w with os := os, calls := .wait site pid (some st) :: w.calls } := by
  simp [Wp, sysWaitpid, h]

theorem wp_wait_failed {site : Site} {pid : Int} {Q : Option (BitVec 32) → World σ → Prop}
    {os : σ} (h : H.waitpid pid w.os = (.failed, os)) :
    Wp (sysWaitpid H site pid) Q E w ↔
      Q none { w with os := os, calls := .wait site pid none :: w.calls } := by
  simp [Wp, sysWaitpid, h]

theorem wp_wait_never {site : Site} {pid : Int} {Q : Option (BitVec 32) → World σ → Prop}
    {os : σ} (h : H.waitpid pid w.os = (.never, os)) :
    Wp (sysWaitpid H site pid) Q E w ↔ E .hang { w with os := os } := by
  simp [Wp, sysWaitpid, h]

/-- A wait either fails, stores a status or never returns; only the world
outside and the record of calls change. -/
theorem wp_sysWaitpid {site : Site} {pid : Int} {Q : Option (BitVec 32) → World σ → Prop}
    (failed : ∀ os, H.waitpid pid w.os = (.failed, os) →
      Q none { w with os := os, calls := .wait site pid none :: w.calls })
    (status : ∀ st os, H.waitpid pid w.os = (.status st, os) →
      Q (some st) { w with os := os, calls := .wait site pid (some st) :: w.calls })
    (never : ∀ os, H.waitpid pid w.os = (.never, os) → E .hang { w with os := os }) :
    Wp (sysWaitpid H site pid) Q E w := by
  cases h : H.waitpid pid w.os with
  | mk result os =>
    cases result with
    | failed => exact (wp_wait_failed h).mpr (failed os h)
    | status st => exact (wp_wait_status h).mpr (status st os h)
    | never => exact (wp_wait_never h).mpr (never os h)

end CallRules

end UnixProgramming.Sdb
