import UnixProgramming.Lib.Memory

namespace UnixProgramming.Sdb
open Lib

abbrev Word := BitVec 64

/-- Why control does not come back to the prompt. An access through a pointer
that names nothing and a write past a buffer are both `crash`. -/
inductive Halt
  | exit (code : Int)
  | crash
  | hang
deriving DecidableEq, Repr

def PT_LOAD : Word := 1
def PF_X : Word := 1
def PF_R : Word := 4
def SHT_PROGBITS : Word := 1
def SHT_SYMTAB : Word := 2
def SHT_STRTAB : Word := 3
def SHT_DYNSYM : Word := 11
def SHF_WRITE : Word := 1
def SHF_ALLOC : Word := 2
def SHF_EXECINSTR : Word := 4
def ELFCLASS32 : Nat := 1
def ELFCLASS64 : Nat := 2

/-- `elf_phdr_t`. -/
structure Phdr where
  type : Word
  offset : Word
  vaddr : Word
  paddr : Word
  filesz : Word
  memsz : Word
  flags : Word
  align : Word
deriving DecidableEq

/-- `elf_shdr_t`. -/
structure Shdr where
  name : Word
  type : Word
  flags : Word
  addr : Word
  offset : Word
  size : Word
  link : Word
  info : Word
  addralign : Word
  entsize : Word
deriving DecidableEq

/-- The ELF header, with `e_type` for the kernel that maps the file. -/
structure Ehdr where
  type : Nat
  phnum : Nat
  shnum : Nat
  shstrndx : Nat
  entry : Word

/-- A section as `elf_nextscn` yields it: its index and, unless libelf fails, its header. -/
structure Scn where
  ndx : Nat
  shdr : Option Shdr

/-- A file as libelf and `pread` show it. `ident` is the class byte, `none` when
`elf_begin` or `elf_getident` fails; `pread` is `none` for -1. -/
structure ElfFile where
  ident : Option Byte
  ehdr : Option Ehdr
  phdrs : Option (Nat → Phdr)
  scns : List Scn
  pread : Word → Word → Option (List Byte)

/-- `elf_strtab_t`. -/
structure StrTab where
  id : Nat
  datasize : BitVec 32
  data : List Byte

/-- A pointer into the list of string tables. -/
inductive TabPtr
  | null
  | tab (id : Nat)
  | wild
deriving DecidableEq

/-- `elf_symbol_t`. -/
structure Symbol where
  name : BitVec 32
  info : Byte
  other : Byte
  shndx : BitVec 16
  value : Word
  size : Word
  bind : Byte
  type : Byte
  visibility : Byte

/-- `elf_symtab_t`. -/
structure SymTab where
  count : Nat
  strtab : TabPtr
  symbol : List Symbol

/-- `elf_handle_t`; `elf` stands for the libelf handle and the descriptor. -/
structure ElfHandle where
  elf : ElfFile
  clazz : Nat
  phnum : Nat
  shnum : Nat
  shstrndx : Nat
  entrypoint : Word
  phdr : Option (List Phdr) := none
  shdr : Option (List Shdr) := none
  strtab : List StrTab := []
  sym : Option SymTab := none
  dsym : Option SymTab := none

/-- The calls of `malloc` in elftool.c. -/
inductive MallocSite
  | handle
  | phdr
  | shdr
  | strtab (i : Nat)
  | strdata (i : Nat)
  | symtab (i : Nat)
  | symbol (i : Nat)

/-- What the allocator does: which calls succeed, and what fresh memory reads
before it is written. -/
structure Alloc where
  malloc : MallocSite → Bool
  shdr : Nat → Shdr
  symStrtab : Nat → TabPtr

section Elftool
variable (A : Alloc)

def elfOpen : Option ElfFile → Except Halt (Option ElfHandle)
  | none => .ok none
  | some f =>
    match f.ident with
    | none => .ok none
    | some clazz =>
      if !A.malloc .handle then .ok none
      else if clazz = 0x01 ∨ clazz = 0x02 then
        match f.ehdr with
        | none => .error .crash
        | some h => .ok (some {
            elf := f
            clazz := if clazz = 0x01 then ELFCLASS32 else ELFCLASS64
            phnum := h.phnum
            shnum := h.shnum
            shstrndx := h.shstrndx
            entrypoint := h.entry })
      else .ok none

def elfLoadPhdr (e : ElfHandle) : Except Halt (Option ElfHandle) :=
  if e.phdr.isSome then .ok (some e)
  else if e.phnum = 0 then .ok none
  else if e.clazz ≠ ELFCLASS32 ∧ e.clazz ≠ ELFCLASS64 then .ok none
  else if !A.malloc .phdr then .ok none
  else match e.elf.phdrs with
    | none => .error .crash
    | some p => .ok (some { e with phdr := some ((List.range e.phnum).map p) })

/-- The loop of `elf_load_shdr`; the table starts with what `malloc` left there. -/
def assignShdr (shnum : Nat) : List Scn → List Shdr → Except Halt (List Shdr)
  | [], shdr => .ok shdr
  | scn :: scns, shdr =>
    match scn.shdr with
    | none => .error .crash
    | some s => assignShdr shnum scns (shdr.set (scn.ndx % shnum) s)

def elfLoadShdr (e : ElfHandle) : Except Halt (Option ElfHandle) :=
  if e.shdr.isSome then .ok (some e)
  else if e.shnum = 0 then .ok none
  else if e.clazz ≠ ELFCLASS32 ∧ e.clazz ≠ ELFCLASS64 then .ok none
  else if !A.malloc .shdr then .ok none
  else (assignShdr e.shnum e.elf.scns ((List.range e.shnum).map A.shdr)).map fun t =>
    some { e with shdr := some t }

/-- The loop of `elf_load_strtab`: the tables of string sections, the last one first. -/
def readStrtab (pread : Word → Word → Option (List Byte)) :
    List (Shdr × Nat) → List StrTab → Option (List StrTab)
  | [], strtab => some strtab
  | (s, i) :: rest, strtab =>
    if s.type ≠ SHT_STRTAB then readStrtab pread rest strtab
    else if !A.malloc (.strtab i) || !A.malloc (.strdata i) then none
    else match pread s.offset s.size with
      | none => none
      | some data =>
        if data.length ≠ s.size.toNat then none
        else readStrtab pread rest (⟨i, s.size.setWidth 32, data⟩ :: strtab)

def elfLoadStrtab (e : ElfHandle) : Except Halt (Option ElfHandle) :=
  if !e.strtab.isEmpty then .ok (some e)
  else match elfLoadShdr A e with
    | .error why => .error why
    | .ok none => .ok none
    | .ok (some e) =>
      match readStrtab A e.elf.pread (e.shdr.getD []).zipIdx [] with
      | none => .ok none
      | some [] => .ok none
      | some strtab => .ok (some { e with strtab := strtab })

def sizeofSym (clazz : Nat) : Nat := if clazz = ELFCLASS32 then 16 else 24

/-- The `n`-byte field at `pos` of the raw symbol table. -/
def rawField (raw : List Byte) (n pos : Nat) : BitVec (8 * n) :=
  ofBytes n (fun i => raw.getD (pos + i) 0)

/-- `ASSIGN_SYM`: entry `i` of an `Elf32_Sym` or `Elf64_Sym` array. -/
def assignSym (clazz : Nat) (raw : List Byte) (i : Nat) : Symbol :=
  let pos := sizeofSym clazz * i
  let info := rawField raw 1 (pos + if clazz = ELFCLASS32 then 12 else 4)
  let other := rawField raw 1 (pos + if clazz = ELFCLASS32 then 13 else 5)
  { name := rawField raw 4 pos
    info := info
    other := other
    shndx := rawField raw 2 (pos + if clazz = ELFCLASS32 then 14 else 6)
    value := if clazz = ELFCLASS32 then (rawField raw 4 (pos + 4)).setWidth 64
      else rawField raw 8 (pos + 8)
    size := if clazz = ELFCLASS32 then (rawField raw 4 (pos + 8)).setWidth 64
      else rawField raw 8 (pos + 16)
    bind := info >>> 4
    type := info &&& 0xf
    visibility := other &&& 0x3 }

/-- `elf_load_symtab_internal` on section `i`. The `strtab` field of the fresh
table is written only when the search finds one. -/
def elfLoadSymtabInternal (e : ElfHandle) (s : Shdr) (i : Nat) : Option SymTab :=
  if e.shdr.isNone || e.strtab.isEmpty || !A.malloc (.symtab i) then none
  else
    let strtab := match e.strtab.find? (fun tab => s.link == BitVec.ofNat 64 tab.id) with
      | some tab => .tab tab.id
      | none => A.symStrtab i
    if strtab = .null then none
    else
      let count := (BitVec.ofNat 32 (s.size.toNat / sizeofSym e.clazz)).toInt.toNat
      if !A.malloc (.symbol i) then none
      else match e.elf.pread s.offset s.size with
        | none => none
        | some raw =>
          if raw.length ≠ s.size.toNat then none
          else some ⟨count, strtab, (List.range count).map (assignSym e.clazz raw)⟩

/-- The search of `elf_load_symtab` and `elf_load_dsymtab`. -/
def loadFirst (e : ElfHandle) (type : Word) : Option SymTab :=
  match (e.shdr.getD []).zipIdx.find? (fun p => p.1.type == type) with
  | none => none
  | some (s, i) => elfLoadSymtabInternal A e s i

def elfLoadSymtab (e : ElfHandle) : ElfHandle :=
  if e.sym.isSome then e else { e with sym := loadFirst A e SHT_SYMTAB }

def elfLoadDsymtab (e : ElfHandle) : ElfHandle :=
  if e.dsym.isSome then e else { e with dsym := loadFirst A e SHT_DYNSYM }

/-- The tables `err_quit` frees. -/
def ElfHandle.freeTables (e : ElfHandle) : ElfHandle :=
  { e with phdr := none, shdr := none, strtab := [], sym := none, dsym := none }

/-- `elf_load_all`: `true` for its result 0, `false` for -1. -/
def elfLoadAll (e : ElfHandle) : Except Halt (Bool × ElfHandle) :=
  match elfLoadPhdr A e with
  | .error why => .error why
  | .ok none => .ok (false, e.freeTables)
  | .ok (some e) =>
    match elfLoadShdr A e with
    | .error why => .error why
    | .ok none => .ok (false, e.freeTables)
    | .ok (some e) =>
      match elfLoadStrtab A e with
      | .error why => .error why
      | .ok none => .ok (false, e.freeTables)
      | .ok (some e) => .ok (true, elfLoadDsymtab A (elfLoadSymtab A e))

end Elftool

end UnixProgramming.Sdb
