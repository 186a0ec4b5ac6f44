import UnixProgramming.Sdb.Host

namespace UnixProgramming.Sdb
open Lib

/-- `WIFEXITED`. -/
def WIFEXITED (status : BitVec 32) : Bool := status &&& 0x7f = 0

/-- `WIFSTOPPED`. -/
def WIFSTOPPED (status : BitVec 32) : Bool := status &&& 0xff = 0x7f

/-- The word `bp_patch` writes for the word it read. -/
def patchWord (code : Word) : Word := (code &&& 0xffffffffffffff00) ||| 0xcc

/-- A pointer to a breakpoint is its place in the list. -/
def Debugger.bpFindByAddr (d : Debugger) (addr : Word) : Option Nat :=
  d.bp.findIdx? (fun b => b.addr == addr)

/-- The record `stop_debugger` leaves, apart from the addresses. -/
def Debugger.stopped (d : Debugger) : Debugger :=
  { d with base := 0, ldump := 0, ldisasm := 0, stat := .loaded }

/-- Breakpoints moved back to the addresses of the file. -/
def Debugger.unbase (d : Debugger) : Debugger :=
  { d with bp := d.bp.map fun b => { b with addr := b.addr - d.base } }

/-- The record `reset_debugger` leaves; the program's name and the last status
and pid are not touched. -/
def Debugger.reset (d : Debugger) : Debugger :=
  { d with
    bpi := 0, base := 0, ldump := 0, ldisasm := 0
    eh := none, ptext := none, stext := none, bp := [], stat := .init }

section
variable {σ : Type} (H : Host σ)

/-- The call of `kill` in `stop_debugger`, with the wait it guards. -/
def killChild : DbgM σ Unit := do
  let d ← dbg
  if ← sysKill H d.pid then
    let _ ← sysWaitpid H .stop d.pid

def stopDebugger : DbgM σ Unit := do
  let d ← dbg
  if d.stat = .init then
    pure ()
  else
    if d.stat = .running then
      killChild H
      let ptext ← deref d.ptextHdr
      if ptext.vaddr = 0 then
        setDbg Debugger.unbase
    setDbg Debugger.stopped

def resetDebugger : DbgM σ Unit := setDbg Debugger.reset

def freeDebugger : DbgM σ Unit := do
  stopDebugger H
  resetDebugger

def bpPatch (target : Word) : DbgM σ Word := do
  let d ← dbg
  let code ← ptracePeek H d.pid target
  if ← ptracePoke H d.pid target (patchWord code) then
    pure code
  else
    errmsg "break failed."
    pure 0

def bpUnpatch (b : BreakPt) : DbgM σ Unit := do
  let d ← dbg
  if ← ptracePoke H d.pid b.addr b.code then
    pure ()
  else
    errmsg "patch failed."

def bpCheck : DbgM σ (Option Nat) := do
  let d ← dbg
  match ← ptraceGetRegs H d.pid with
  | none => errquit 1 "get regs failed."
  | some regs => pure (d.bpFindByAddr (regs .rip))

def printInsns : List Insn → DbgM σ Unit
  | [] => pure ()
  | i :: rest => do
    print (.insn i)
    printInsns rest

/-- `disasm` of debugger.c: prints at most `n` instructions and returns their size. -/
def disasm (code : List Byte) (addr : Word) (n : Nat) : DbgM σ Nat := do
  if !(← ask H.csOpen) then
    errmsg "capstone failed."
    pure 0
  else
    let insn := H.csDisasm code addr
    if insn.isEmpty then
      errmsg "disasm failed."
      pure 0
    else
      printInsns (insn.take n)
      pure ((insn.take n).map (·.bytes.length)).sum

/-- The eight bytes of a saved word in memory order. -/
def codeBytes (code : Word) : List Byte := (List.range 8).map (byteOf code)

def showBreak (b : BreakPt) : DbgM σ Unit := do
  print .breakpoint
  let _ ← disasm H (codeBytes b.code) b.addr 1

def resetRip : DbgM σ Unit := do
  let d ← dbg
  match ← ptraceGetRegs H d.pid with
  | none => errquit 1 "get regs failed."
  | some regs =>
    match d.bpFindByAddr (regs .rip - 1) with
    | none => pure ()
    | some i =>
      if ← ptraceSetRegs H d.pid (regs.set .rip (regs .rip - 1)) then
        let current ← deref d.bp[i]?
        showBreak H current
      else
        errmsg "set regs failed."

def cmd (param : Resume) : DbgM σ Unit := do
  let d ← dbg
  ptraceResume H param d.pid
  match ← sysWaitpid H .cmd d.pid with
  | none => errquit 1 "waitpid failed."
  | some status =>
    setDbg ({ · with status := status })
    if WIFEXITED status then
      stopDebugger H
      if status ≠ 0 then
        errmsg "child process %d terminated abnormally (code %d)" [.int d.pid, .int status.toInt]
      else
        errmsg "child process %d terminated normally (code %d)" [.int d.pid, .int status.toInt]
    else if WIFSTOPPED status then
      resetRip H
    else
      errmsg "child process %d signaled" [.int d.pid]

end

/-- `copy_argv` with a first word. -/
def copyArgv (first : String) (argv : List String) : List String := first :: argv.tail

/-- The command a word names: the first node whose name or nick it is. -/
def lookup (list : List Builtin) (word : String) : Option Builtin :=
  list.find? fun b => b.name == word || b.nick == word

end UnixProgramming.Sdb
