import UnixProgramming.Lib.Wp

namespace UnixProgramming.Fsmon

/-- Functions of libc: those fsmon.c defines again, and behind them those it only calls. -/
inductive Name
  | fscanf | fprintf | «open» | closedir | opendir | readdir | creat | read | write | dup | dup2
  | close | lxstat | xstat | pwrite | fopen | fclose | fread | fwrite | fgetc | fgets
  | chdir | chown | chmod | remove | rename | link | unlink | readlink | symlink | mkdir | rmdir
  | vfscanf | vfprintf | dprintf | fileno | sprintf | memset | dirfd | getpwuid | getgrgid
deriving DecidableEq

/-- The functions the library defines. -/
def Name.own : Name → Bool
  | .vfscanf | .vfprintf | .dprintf | .fileno | .sprintf | .memset | .dirfd | .getpwuid
  | .getgrgid => false
  | _ => true

/-- An argument of a format. -/
inductive Arg
  | str (s : String)
  | int (n : Int)
deriving DecidableEq

/-- A call with its arguments; `ap` are those behind the named ones. Addresses are integers,
and `NULL` is 0. -/
inductive Call
  | fscanf (stream : Int) (format : String) (ap : List Int)
  | fprintf (stream : Int) (format : String) (ap : List Int)
  | «open» (path : String) (oflag : Nat) (ap : List Int)
  | closedir (dirp : Int)
  | opendir (name : String)
  | readdir (dirp : Int)
  | creat (path : String) (mode : Int)
  | read (fildes buf nbyte : Int)
  | write (fildes buf nbyte : Int)
  | dup (fildes : Int)
  | dup2 (fildes fildes2 : Int)
  | close (fildes : Int)
  | lxstat (ver : Int) (path : String) (statBuf : Int)
  | xstat (ver : Int) (path : String) (statBuf : Int)
  | pwrite (fildes buf nbyte offset : Int)
  | fopen (pathname mode : String)
  | fclose (stream : Int)
  | fread (ptr size nmemb stream : Int)
  | fwrite (ptr size nmemb stream : Int)
  | fgetc (stream : Int)
  | fgets (s size stream : Int)
  | chdir (path : String)
  | chown (path : String) (owner group : Int)
  | chmod (path : String) (mode : Int)
  | remove (pathname : String)
  | rename (old new : String)
  | link (path1 path2 : String)
  | unlink (path : String)
  | readlink (path : String) (buf bufsize : Int)
  | symlink (path1 path2 : String)
  | mkdir (path : String) (mode : Int)
  | rmdir (path : String)
  | vfscanf (stream : Int) (format : String) (ap : List Int)
  | vfprintf (stream : Int) (format : String) (ap : List Int)
  | dprintf (fd : Int) (format : String) (args : List Arg)
  | fileno (stream : Int)
  | sprintf (str : Int) (format : String) (args : List Arg)
  | memset (s c n : Int)
  | dirfd (dirp : Int)
  | getpwuid (uid : Int)
  | getgrgid (gid : Int)
deriving DecidableEq

def Call.name : Call → Name
  | .fscanf .. => .fscanf | .fprintf .. => .fprintf | .open .. => .open
  | .closedir _ => .closedir | .opendir _ => .opendir | .readdir _ => .readdir
  | .creat .. => .creat | .read .. => .read | .write .. => .write | .dup _ => .dup
  | .dup2 .. => .dup2 | .close _ => .close | .lxstat .. => .lxstat
  | .xstat .. => .xstat | .pwrite .. => .pwrite | .fopen .. => .fopen
  | .fclose _ => .fclose | .fread .. => .fread | .fwrite .. => .fwrite | .fgetc _ => .fgetc
  | .fgets .. => .fgets | .chdir _ => .chdir | .chown .. => .chown | .chmod .. => .chmod
  | .remove _ => .remove | .rename .. => .rename | .link .. => .link | .unlink _ => .unlink
  | .readlink .. => .readlink | .symlink .. => .symlink | .mkdir .. => .mkdir
  | .rmdir _ => .rmdir | .vfscanf .. => .vfscanf | .vfprintf .. => .vfprintf
  | .dprintf .. => .dprintf | .fileno _ => .fileno | .sprintf .. => .sprintf
  | .memset .. => .memset | .dirfd _ => .dirfd | .getpwuid _ => .getpwuid
  | .getgrgid _ => .getgrgid

/-- What libc does on a call: the result, the string behind it or in the buffer it filled, what
it sets `errno` to, and the process and its files from then on. -/
structure Reply (W : Type) where
  ret : Int
  text : String := ""
  errno : Option Int := none
  world : W

/-- libc and the kernel below it, with the addresses of `stderr` and of the two buffers of
`fd2name`. -/
structure Libc (W : Type) where
  real : Call → W → Reply W
  getenv : String → W → Option String
  stMode : Int → W → Int
  stSize : Int → W → Int
  /-- The text at an address; `none` if memory ends before a zero does. -/
  string : Int → W → Option String
  stderr : Int
  path : Int
  name : Int

/-- A result as the caller has it. -/
structure Value where
  ret : Int
  text : String := ""
deriving DecidableEq

/-- What a function pointer points to: a function of libc or of the library itself. -/
inductive Ptr
  | libc (n : Name)
  | own (n : Name)
deriving DecidableEq

/-- What `dlopen` returns. -/
inductive Handle
  | libc
deriving DecidableEq

/-- `NULL` is the global scope, where the library comes before libc. -/
def dlsym : Option Handle → Name → Ptr
  | none, n => if n.own then .own n else .libc n
  | some .libc, n => .libc n

/-- What the monitor does for a call: it forwards it, with the result and `errno` then, and it
writes a line. -/
inductive Event
  | forward (n : Name) (c : Call) (ret errno : Int)
  | log (fd : Int) (format : String) (args : List Arg)
deriving DecidableEq

/-- A process with the library in it: the variables of fsmon.c and of util.c, with the pointers
`name_util` of each and `name_libc` of the wrappers. -/
structure Machine (W : Type) where
  libc : Option Handle := none
  OUTPUT : Int := -1
  util : Name → Option Ptr := fun _ => none
  cached : Name → Option Ptr := fun _ => none
  libcUtil : Option Handle := none
  tools : Name → Option Ptr := fun _ => none
  errno : Int
  world : W
  trace : List Event := []

/-- How a call can fail to return: an access through `NULL` or behind the end of memory, or no
stack left. -/
inductive Fault
  | null
  | wild
  | stack
deriving DecidableEq

abbrev M (W : Type) := EStateM Fault (Machine W)

section
variable {W : Type} (L : Libc W)

/-- The machine after a call of libc. -/
def Machine.called (m : Machine W) (c : Call) : Machine W :=
  let r := L.real c m.world
  { m with world := r.world, errno := r.errno.getD m.errno }

def Machine.note (m : Machine W) (e : Event) : Machine W := { m with trace := m.trace ++ [e] }

/-- A call that ends up in libc. -/
def libcCall (c : Call) : M W Value := do
  let r := L.real c (← get).world
  modify fun m => m.called L c
  return ⟨r.ret, r.text⟩

variable (self : Call → M W Value)

/-- A call through a pointer. -/
def callPtr (p : Option Ptr) (c : Call) : M W Value :=
  match p with
  | none => throw .null
  | some (.libc _) => libcCall L c
  | some (.own _) => self c

/-- A call through the pointer of a wrapper. -/
def forward (p : Option Ptr) (c : Call) : M W Value :=
  match p with
  | none => throw .null
  | some (.libc n) => do
    let ret ← libcCall L c
    modify fun m => m.note (.forward n c ret.ret m.errno)
    return ret
  | some (.own _) => self c

end

end UnixProgramming.Fsmon
