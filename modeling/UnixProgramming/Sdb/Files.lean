import UnixProgramming.Sdb.Host

namespace UnixProgramming.Sdb
open Lib

/-- The files, and how the debugger and its children look names up: `resolve` takes a path from a
directory to a file, the current one is `cwd`, and `path` are the directories of `PATH`. -/
structure Files (ν : Type) where
  resolve : String → String → Option ν
  nameless : ∀ dir, resolve dir "" = none
  cwd : String
  path : List String
  runs : ν → Bool
  elf : ν → Option ElfFile
  data : ν → List Byte

/-- The file that `open` opens under a name. -/
def Files.opened (fs : Files ν) (name : String) : Option ν := fs.resolve fs.cwd name

/-- A name in a directory of `PATH`; an empty one stands for the current directory. -/
def inDirectory (name dir : String) : String := if dir = "" then name else dir ++ "/" ++ name

/-- The paths `execvp` tries, one after the other. -/
def Files.candidates (fs : Files ν) (name : String) : List String :=
  if '/' ∈ name.toList then [name] else fs.path.map (inDirectory name)

/-- The file a path leads to, if it can be executed. -/
def Files.program (fs : Files ν) (path : String) : Option ν := (fs.opened path).filter fs.runs

/-- The file that `execvp` executes. -/
def Files.execvp (fs : Files ν) (name : String) : Option ν :=
  if name = "" then none else (fs.candidates name).findSome? fs.program

section
variable {σ ν : Type} (B : Host σ) (files : σ → Files ν)

/-- The services of `B` over `files`. `spawn` makes the child of a `fork` from the file that its
`execvp` executes; without one the child exits. -/
def fileHost (spawn : Option ν → List String → σ → Option Nat × σ) : Host σ :=
  { B with
    elf := fun name os => ((files os).opened name).bind (files os).elf
    fread := fun name offset n os => ((files os).opened name).map fun f =>
      (((files os).data f).drop offset.toNat).take n
    fork := fun program argv os => spawn ((files os).execvp program) argv os }

/-- The same host with children that execute `f` under any name. -/
def executing (f : Option ν) (spawn : Option ν → List String → σ → Option Nat × σ) : Host σ :=
  { fileHost B files spawn with fork := fun _ argv os => spawn f argv os }

end

end UnixProgramming.Sdb
