import UnixProgramming.Sdb.Debugger

namespace UnixProgramming.Sdb
open Lib

def MAX_PROG_NAME_LEN : Nat := 128

/-- The offset of `eh` in `debugger_t`. -/
def ehOffset : Nat := 168

/-- Byte `i` of `debugger_t` behind a `strcpy` of `name` to its start, where `old` was. -/
def copiedByte (name : String) (i : Nat) (old : Byte) : Byte :=
  if name.utf8ByteSize < i then old
  else (name.toUTF8.data[i]?.map UInt8.toBitVec).getD 0

/-- The field of `n` bytes at `at_`, likewise. -/
def copiedField (name : String) (at_ : Nat) {n : Nat} (old : BitVec (8 * n)) : BitVec (8 * n) :=
  ofBytes n fun i => copiedByte name (at_ + i) (byteOf old i)

/-- `strcpy(dbg->program, name)`: a name that does not fit in `program` runs on into the
fields behind it. `stat`, the first of them, is set in the next line. -/
def Debugger.copyName (d : Debugger) (name : String) : Debugger :=
  { d with
    program := name
    status := copiedField (n := 4) name 132 d.status
    pid := if name.utf8ByteSize < 136 then d.pid
      else (copiedField (n := 4) name 136 (BitVec.ofInt 32 d.pid)).toInt
    bpi := copiedField (n := 4) name 140 d.bpi
    base := copiedField (n := 8) name 144 d.base
    ldump := copiedField (n := 8) name 152 d.ldump
    ldisasm := copiedField (n := 8) name 160 d.ldisasm }

section
variable (d : Debugger) (name : String)

@[simp] theorem Debugger.copyName_eh : (d.copyName name).eh = d.eh := rfl

@[simp] theorem Debugger.copyName_ptext : (d.copyName name).ptext = d.ptext := rfl

@[simp] theorem Debugger.copyName_stext : (d.copyName name).stext = d.stext := rfl

@[simp] theorem Debugger.copyName_bp : (d.copyName name).bp = d.bp := rfl

end

/-- As many characters as fit in `n` bytes. -/
def takeBytes : Nat → List Char → List Char
  | _, [] => []
  | n, c :: rest => if c.utf8Size ≤ n then c :: takeBytes (n - c.utf8Size) rest else []

/-- `dbg->program` as a string: behind a name without its NUL inside `program` comes the first
byte of `stat`. -/
def Debugger.programText (d : Debugger) : String :=
  if d.program.utf8ByteSize < MAX_PROG_NAME_LEN then d.program
  else
    String.ofList (takeBytes MAX_PROG_NAME_LEN d.program.toList ++
      match d.stat with
      | .init => []
      | .loaded => ['\x01']
      | .running => ['\x02'])

/-- The test of the loop that sets `ptext`. -/
def Phdr.isText (p : Phdr) : Bool :=
  p.type == PT_LOAD && p.flags &&& PF_R != 0 && p.flags &&& PF_X != 0

/-- The test of the loop that sets `stext`; the comparisons are signed. -/
def Shdr.isText (entrypoint : Word) (s : Shdr) : Bool :=
  s.type == SHT_PROGBITS && s.flags &&& SHF_ALLOC != 0 && s.flags &&& SHF_EXECINSTR != 0 &&
    s.addr.sle entrypoint && entrypoint.slt (s.addr + s.size)

/-- The two loops of `cmd_load`: a pointer without a match keeps its value. -/
def Debugger.findText (d : Debugger) (eh : ElfHandle) : Debugger :=
  { d with
    ptext := ((eh.phdr.getD []).findIdx? Phdr.isText).or d.ptext
    stext := ((eh.shdr.getD []).findIdx? (Shdr.isText eh.entrypoint)).or d.stext }

/-- Bounds of the text section in the current address space, both of which
`break` lets through. -/
def Debugger.textBegin (d : Debugger) (stext : Shdr) : Word := d.base + stext.addr

def Debugger.textEnd (d : Debugger) (stext : Shdr) : Word := d.base + stext.addr + stext.size

/-- The walk of `cmd_delete` behind its first node: `ptr` trails `current`. -/
def unlinkAfter (n : BitVec 32) : BreakPt → List BreakPt → Option (BreakPt × List BreakPt)
  | _, [] => none
  | ptr, current :: next =>
    if current.id = n then some (current, ptr :: next)
    else (unlinkAfter n current next).map fun r => (r.1, ptr :: r.2)

def unlink (n : BitVec 32) : List BreakPt → Option (BreakPt × List BreakPt)
  | [] => none
  | ptr :: next => if ptr.id = n then some (ptr, next) else unlinkAfter n ptr next

/-- The layout of `user_regs_struct`, which `get` and `set` index with the place of
a name in `regs_list`. -/
def Reg.layout : List Reg :=
  [.r15, .r14, .r13, .r12, .rbp, .rbx, .r11, .r10, .r9, .r8, .rax, .rcx, .rdx, .rsi, .rdi,
    .orig_rax, .rip, .cs, .eflags, .rsp, .ss, .fs_base, .gs_base, .ds, .es, .fs, .gs]

def regsList : List String :=
  ["r15", "r14", "r13", "r12", "rbp", "rbx", "r11", "r10", "r9", "r8", "rax", "rcx", "rdx",
    "rsi", "rdi", "orig_rax", "rip", "cs", "eflags", "rsp", "ss", "fs_base", "gs_base", "ds",
    "es", "fs", "gs"]

def findReg (name : String) : Option Reg :=
  (regsList.findIdx? (· == name)).bind fun i => Reg.layout[i]?

/-- `isprint(c) ? c : '.'`. -/
def printable (c : Byte) : Byte := if 0x20 ≤ c ∧ c ≤ 0x7e then c else 0x2e

/-- The file window `disasm` asks for in LOADED, in C's `int` and `long long`:
the offset and the count, or `none` when it rejects the address. -/
def disasmWindow (ptext : Phdr) (stext : Shdr) (addr : Word) : Option (BitVec 32 × BitVec 32) :=
  let offset := (addr - ptext.vaddr).setWidth 32
  if offset.toInt < stext.offset.toInt then none
  else if (stext.offset + stext.size).toInt < (offset + 160).toInt then
    some (offset, (stext.offset + stext.size - offset.signExtend 64).setWidth 32)
  else some (offset, 160)

/-- The byte `disasm` shows for the byte it read at `addr`. -/
def Debugger.unmask (d : Debugger) (addr : Word) (c : Byte) : Option Byte :=
  if c = 0xcc then (d.bpFindByAddr addr).bind fun i => d.bp[i]?.map fun b => byteOf b.code 0
  else some c

def unmaskFrom (d : Debugger) : Word → List Byte → Option (List Byte)
  | _, [] => some []
  | addr, c :: rest => do
    let c ← d.unmask addr c
    let rest ← unmaskFrom d (addr + 1) rest
    return c :: rest

/-- `flags2perm`. -/
def flags2perm (flags : Word) : List Char :=
  ['r', if flags &&& SHF_WRITE = SHF_WRITE then 'w' else '-',
    if flags &&& SHF_ALLOC = SHF_ALLOC then 'x' else '-']

/-- The rest of the format of `cmd_vmmap` behind `%llx-%llx %s %llx`, which stores nothing. -/
def skipMaps (s : List Char) : List Char :=
  match scanWord s with
  | .got _ s =>
    match scanWord s with
    | .got _ s => s.dropWhile fun c => c = ' ' || c = '\t'
    | .mismatch s => s
    | .eof => []
  | .mismatch s => s
  | .eof => []

/-- One `fscanf` of `cmd_vmmap`: the locals and the input after it, `none` for `EOF`.
The inner `none` is a word that does not fit `perm`. -/
def scanMaps (v : MapsVars) (s : List Char) : Option (Option (MapsVars × List Char)) :=
  match scanHex s with
  | .eof => none
  | .mismatch s => some (some (v, s))
  | .got lo s =>
    let v := { v with begin_ := lo }
    match scanLit '-' s with
    | .eof => some (some (v, []))
    | .mismatch s => some (some (v, s))
    | .got _ s =>
      match scanHex s with
      | .eof => some (some (v, []))
      | .mismatch s => some (some (v, s))
      | .got hi s =>
        let v := { v with end_ := hi }
        match scanWord s with
        | .eof => some (some (v, []))
        | .mismatch s => some (some (v, s))
        | .got perm s =>
          if 8 ≤ perm.length then some none
          else
            let v := { v with perm := perm }
            match scanHex s with
            | .eof => some (some (v, []))
            | .mismatch s => some (some (v, s))
            | .got offset s => some (some ({ v with offset := offset }, skipMaps s))

section
variable {σ : Type} (H : Host σ)

/-- `cmd_load` once the previous program is gone. -/
def loadFile (name : String) : DbgM σ Unit := do
  let A ← ask H.alloc
  match elfOpen A (← ask (H.elf name)) with
  | .error why => throw why
  | .ok none =>
    setDbg ({ · with eh := none })
    errmsg "no such file or directory."
  | .ok (some eh) =>
    setDbg ({ · with eh := some eh })
    match elfLoadAll A eh with
    | .error why => throw why
    | .ok (false, eh) =>
      setDbg ({ · with eh := some eh })
      freeDebugger H
      errmsg "unable to load '%s'." [.str name]
    | .ok (true, eh) =>
      setDbg ({ · with eh := some eh })
      if eh.strtab.all (·.id ≠ eh.shstrndx) then
        resetDebugger
        errmsg "section header string table not found."
      else
        setDbg (·.findText eh)
        let d ← dbg
        if d.stext.isNone then
          resetDebugger
          errmsg "no text segment."
        else if ehOffset ≤ name.utf8ByteSize then
          -- strcpy reaches dbg->eh, which is read in the lines that follow
          throw .crash
        else
          setDbg (·.copyName name)
          setDbg ({ · with stat := .loaded })
          let stext ← deref d.stextHdr
          errmsg ("program '%s' loaded." ++
              " entry point %#lx, vaddr %#llx, offset %#llx, size %#llx")
            [.str name, .word eh.entrypoint, .word stext.addr, .word stext.offset,
              .word stext.size]

def cmdLoad (argv : List String) : DbgM σ Unit := do
  match argv[1]? with
  | none => errmsg "no executable file specified."
  | some name =>
    let d ← dbg
    if d.stat = .loaded ∨ d.stat = .running then
      freeDebugger H
    loadFile H name

def cmdBreak (argv : List String) : DbgM σ Unit := do
  match argv[1]? with
  | none => errmsg "no address specified."
  | some text =>
    let d ← dbg
    if d.stat ≠ .loaded ∧ d.stat ≠ .running then
      errmsg "no executable file specified.  load first."
    else
      let target := strtoll text
      let stext ← deref d.stextHdr
      if target < d.textBegin stext ∨ d.textEnd stext < target then
        errmsg "address out of range."
      else if (d.bpFindByAddr target).isSome then
        errmsg "breakpoint already set @ %llx." [.word target]
      else
        setDbg fun d => { d with bpi := d.bpi + 1 }
        let code ← if d.stat = .running then bpPatch H target else pure 0
        setDbg fun d' => { d' with bp := d'.bp ++ [⟨d.bpi, target, code⟩] }

def cmdDelete (argv : List String) : DbgM σ Unit := do
  match argv[1]? with
  | none => errmsg "no break point specified."
  | some text =>
    let n := atoi text
    let d ← dbg
    match unlink n d.bp with
    | none => errmsg "breakpoint %d does not exist." [.int n.toInt]
    | some (current, bp) =>
      setDbg ({ · with bp := bp })
      bpUnpatch H current
      errmsg "breakpoint %d deleted." [.int n.toInt]

/-- The loop of `cmd_start` that moves every breakpoint to its run address and arms it. -/
def patchLoop (base : Word) : List BreakPt → DbgM σ (List BreakPt)
  | [] => pure []
  | b :: rest => do
    let code ← bpPatch H (b.addr + base)
    let rest ← patchLoop base rest
    pure ({ b with addr := b.addr + base, code := code } :: rest)

/-- `begin` after the `fscanf` of `cmd_start`, which may store nothing. -/
def scanBegin (maps : String) : DbgM σ Word :=
  match scanHex maps.toList with
  | .got begin_ _ => pure begin_
  | _ => ask H.stackBegin

/-- `cmd_start` from the line that sets `base`. -/
def startAt (pid : Nat) (begin_ : Word) : DbgM σ Unit := do
  let d ← dbg
  let ptext ← deref d.ptextHdr
  let base := if ptext.vaddr = 0 then begin_ else 0
  setDbg ({ · with base := base })
  let bp ← patchLoop H base d.bp
  setDbg ({ · with bp := bp, stat := .running })
  errmsg "pid %d" [.int pid]
  match ← bpCheck H with
  | none => pure ()
  | some i =>
    let current ← deref bp[i]?
    showBreak H current

/-- The parent's half of `cmd_start` after the child has stopped. -/
def startChild (pid : Nat) : DbgM σ Unit := do
  let maps ← deref (← ask (H.maps pid))
  let begin_ ← scanBegin H maps
  startAt H pid begin_

def cmdStart (argv : List String) : DbgM σ Unit := do
  let d ← dbg
  if d.stat = .init then
    errmsg "no executable file specified.  load first."
  else if d.stat = .running then
    errmsg "program %s is already running." [.str d.programText]
  else
    match ← sysFork H d.programText (copyArgv d.programText argv) with
    | none =>
      setDbg ({ · with pid := -1 })
      errmsg "fork failed."
    | some pid =>
      setDbg ({ · with pid := pid })
      match ← sysWaitpid H .start pid with
      | none => errmsg "waitpid failed."
      | some status =>
        setDbg ({ · with status := status })
        if !WIFSTOPPED status then
          errmsg "child error."
        else
          startChild H pid

/-- The step over the breakpoint under `rip`. `current` is still the same node of
the list after `cmd`, with the address it has then. -/
def cmdSi : DbgM σ Unit := do
  let d ← dbg
  if d.stat ≠ .running then
    errmsg "the program is not being run."
  else
    match ← bpCheck H with
    | none => cmd H .singlestep
    | some i =>
      let current ← deref d.bp[i]?
      bpUnpatch H current
      cmd H .singlestep
      let d ← dbg
      let current ← deref d.bp[i]?
      let _ ← bpPatch H current.addr

def cmdCont (exec : List String → DbgM σ Unit) (argv : List String) : DbgM σ Unit := do
  let d ← dbg
  if d.stat ≠ .running then
    errmsg "the program is not being run."
  else
    exec (copyArgv "si" argv)
    cmd H .cont

def cmdRun (exec : List String → DbgM σ Unit) (argv : List String) : DbgM σ Unit := do
  let d ← dbg
  if d.stat = .init then
    errmsg "no executable file specified.  load first."
  else
    if d.stat = .loaded then
      exec (copyArgv "start" argv)
    else
      errmsg "program %s is already running." [.str d.programText]
    if (← bpCheck H).isNone then
      exec (copyArgv "cont" argv)

def cmdGet (argv : List String) : DbgM σ Unit := do
  match argv[1]? with
  | none => errmsg "no reg name specified."
  | some name =>
    let d ← dbg
    if d.stat ≠ .running then
      errmsg "the program is not being run."
    else
      match ← ptraceGetRegs H d.pid with
      | none => errquit 1 "get regs failed."
      | some regs =>
        match findReg name with
        | some r => print (.reg name (regs r))
        | none => errmsg "not valid reg name."

def cmdGetregs : DbgM σ Unit := do
  let d ← dbg
  if d.stat ≠ .running then
    errmsg "the program is not being run."
  else
    match ← ptraceGetRegs H d.pid with
    | none => errquit 1 "get regs failed."
    | some regs => print (.regs regs)

def cmdSet (argv : List String) : DbgM σ Unit := do
  match argv[1]?, argv[2]? with
  | some name, some text =>
    let d ← dbg
    if d.stat ≠ .running then
      errmsg "the program is not being run."
    else
      match ← ptraceGetRegs H d.pid with
      | none => errquit 1 "get regs failed."
      | some regs =>
        match findReg name with
        | some r =>
          if ← ptraceSetRegs H d.pid (regs.set r (strtoll text)) then
            pure ()
          else
            errmsg "set regs failed."
        | none => errmsg "not valid reg name."
  | _, _ => errmsg "no reg name or no value specified."

/-- `n` rows of `cmd_dump`. -/
def dumpRows : Nat → Word → DbgM σ Unit
  | 0, _ => pure ()
  | n + 1, target => do
    let d ← dbg
    let lo ← ptracePeek H d.pid target
    let hi ← ptracePeek H d.pid (target + 8)
    let bytes := codeBytes lo ++ codeBytes hi
    print (.row target bytes (bytes.map printable))
    dumpRows n (target + 16)

def cmdDump (argv : List String) : DbgM σ Unit := do
  let d ← dbg
  if argv.length < 2 ∧ d.ldump = 0 then
    errmsg "no address specified."
  else if d.stat ≠ .running then
    errmsg "the program is not being run."
  else
    let target := match argv[1]? with
      | none => d.ldump
      | some text => strtoll text
    dumpRows H 5 target
    setDbg ({ · with ldump := target + 80 })

/-- The words `disasm` reads from the running program. -/
def peekWords : Nat → Word → DbgM σ (List Byte)
  | 0, _ => pure []
  | n + 1, addr => do
    let d ← dbg
    let word ← ptracePeek H d.pid addr
    let rest ← peekWords n (addr + 8)
    pure (codeBytes word ++ rest)

/-- The code `disasm` shows in LOADED: the window of the file, in a buffer of 256 bytes that
`fread` must not run over. To `fread` and to the decoder a negative count is a huge one, and the
decoder then goes on into the stack behind the buffer. -/
def fileCode (d : Debugger) (window : BitVec 32 × BitVec 32) : DbgM σ (List Byte) := do
  let count := (window.2.signExtend 64).toNat
  let got ← deref (← ask (H.fread d.programText window.1.toInt count))
  if 256 < got.length then
    throw .crash
  else
    let stack ← ask H.stackCode
    pure ((got ++ stack.drop got.length).take count)

def showCode (code : List Byte) (addr : Word) : DbgM σ Unit := do
  let size ← disasm H code addr 10
  setDbg ({ · with ldisasm := addr + BitVec.ofNat 64 size })

def cmdDisasm (argv : List String) : DbgM σ Unit := do
  let d ← dbg
  if argv.length < 2 ∧ d.ldisasm = 0 then
    errmsg "no addr is given."
  else if d.stat = .init then
    errmsg "no executable file specified.  load first."
  else
    let addr := match argv[1]? with
      | none => d.ldisasm
      | some text => strtoll text
    if d.stat = .loaded then
      let ptext ← deref d.ptextHdr
      let stext ← deref d.stextHdr
      match disasmWindow ptext stext addr with
      | none => errmsg "address out of range."
      | some window =>
        let code ← fileCode H d window
        showCode H code addr
    else
      let code ← peekWords H 20 addr
      let code ← deref (unmaskFrom d addr code)
      showCode H code addr

def listBreaks : List BreakPt → DbgM σ Unit
  | [] => pure ()
  | b :: rest => do
    print (.bp b.id b.addr)
    listBreaks rest

def cmdList : DbgM σ Unit := do
  let d ← dbg
  listBreaks d.bp

/-- The loop of `cmd_vmmap`. Every round takes a character or stops, so the length
of the text bounds the rounds. -/
def mapsLoop : Nat → MapsVars → List Char → DbgM σ Unit
  | 0, _, _ => pure ()
  | n + 1, v, s =>
    match scanMaps v s with
    | none => pure ()
    | some none => throw .crash
    | some (some (v, s)) => do
      let (program, s) := (fgets 128 s).getD (v.program, s)
      let v := { v with perm := v.perm.take 3, program := program.takeWhile fun c => c ≠ '\r' ∧ c ≠ '\n' }
      print (.mapping v.begin_ v.end_ v.perm v.offset v.program)
      mapsLoop n v s

def cmdVmmap : DbgM σ Unit := do
  let d ← dbg
  if d.stat = .loaded then
    let stext ← deref d.stextHdr
    print (.mapping stext.addr (stext.addr + stext.size) (flags2perm stext.flags) stext.offset
      d.programText.toList)
  else if d.stat = .running then
    let maps ← deref (← ask (H.maps d.pid))
    let v ← ask H.stackMaps
    mapsLoop (maps.length + 1) v maps.toList
  else
    errmsg "no executable file specified.  load first."

def cmdHelp : DbgM σ Unit := print .help

def cmdExit : DbgM σ Unit := do
  freeDebugger H
  throw (.exit 0)

/-- The `exec` member of a registered node. -/
def Builtin.exec (exec : List String → DbgM σ Unit) (argv : List String) : Builtin → DbgM σ Unit
  | .load => cmdLoad H argv
  | .break => cmdBreak H argv
  | .delete => cmdDelete H argv
  | .start => cmdStart H argv
  | .run => cmdRun H exec argv
  | .si => cmdSi H
  | .cont => cmdCont H exec argv
  | .get => cmdGet H argv
  | .getregs => cmdGetregs H
  | .set => cmdSet H argv
  | .dump => cmdDump H argv
  | .disasm => cmdDisasm H argv
  | .list => cmdList
  | .vmmap => cmdVmmap H
  | .help => cmdHelp
  | .exit => cmdExit H

/-- `exec`, nested at most `depth` deep. A missing first word is a NULL `argv[0]`. -/
def exec : Nat → List String → DbgM σ Unit
  | 0, _ => throw .hang
  | _ + 1, [] => throw .crash
  | depth + 1, word :: argv =>
    match lookup H.list word with
    | some b => b.exec H (exec depth) (word :: argv)
    | none => errmsg "undefined command: '%s'." [.str word]

/-- What happens at the prompt: a line is entered, the input ends, or something
outside moves before either. -/
inductive Input (σ : Type)
  | line (argv : List String)
  | eof
  | outside (move : σ → σ)

/-- One round of the loop of `main`. `run` calls `cont` and `cont` calls `si`, so
three levels of `exec` are enough. -/
def handle : Input σ → DbgM σ Unit
  | .line argv => exec H 3 argv
  | .eof => do
    freeDebugger H
    throw (.exit 0)
  | .outside move => fun w => .ok () { w with os := move w.os }

end

/-- `init_debugger`, before any input. -/
def World.init {σ : Type} (os : σ) : World σ := ⟨{}, os, [], []⟩

end UnixProgramming.Sdb
