import UnixProgramming.Fsmon.Process

namespace UnixProgramming.Fsmon

/-- `ptrs` with `n` set. -/
def store (ptrs : Name → Option Ptr) (n : Name) (p : Ptr) : Name → Option Ptr :=
  fun k => if k = n then some p else ptrs k

@[simp] theorem store_apply (ptrs : Name → Option Ptr) (n : Name) (p : Ptr) (k : Name) :
    store ptrs n p k = if k = n then some p else ptrs k := rfl

/-- The text the log shows a function by. -/
def Name.str : Name → String
  | .fscanf => "fscanf" | .fprintf => "fprintf" | .open => "open" | .closedir => "closedir"
  | .opendir => "opendir" | .readdir => "readdir" | .creat => "creat" | .read => "read"
  | .write => "write" | .dup => "dup" | .dup2 => "dup2" | .close => "close"
  | .lxstat => "__lxstat" | .xstat => "__xstat" | .pwrite => "pwrite" | .fopen => "fopen"
  | .fclose => "fclose" | .fread => "fread" | .fwrite => "fwrite" | .fgetc => "fgetc"
  | .fgets => "fgets" | .chdir => "chdir" | .chown => "chown" | .chmod => "chmod"
  | .remove => "remove" | .rename => "rename" | .link => "link" | .unlink => "unlink"
  | .readlink => "readlink" | .symlink => "symlink" | .mkdir => "mkdir" | .rmdir => "rmdir"
  | .vfscanf => "vfscanf" | .vfprintf => "vfprintf" | .dprintf => "dprintf"
  | .fileno => "fileno" | .sprintf => "sprintf" | .memset => "memset" | .dirfd => "dirfd"
  | .getpwuid => "getpwuid" | .getgrgid => "getgrgid"

def COLOR (msg : String) : String := "\x1b[0;33m" ++ msg ++ "\x1b[0m"

def O_WRONLY : Nat := 1
def O_CREAT : Nat := 64
def O_TRUNC : Nat := 512

section Util
variable {W : Type} (L : Libc W) (self : Call → M W Value)

/-- `LOAD` of util.c. -/
def loadUtil (n : Name) : M W Unit :=
  modify fun m =>
    if (m.tools n).isNone then { m with tools := store m.tools n (dlsym m.libcUtil n) } else m

def initializeUtil : M W Unit := do
  modify fun m => { m with libcUtil := some .libc }
  loadUtil .sprintf
  loadUtil .memset
  loadUtil .readlink
  loadUtil .fileno
  loadUtil .getpwuid
  loadUtil .getgrgid

/-- The constructor of util.c, and the first lines of its functions. -/
def loadLibc : M W Unit := do
  if (← get).libcUtil.isNone then initializeUtil

/-- A call through a pointer of util.c. -/
def callTool (c : Call) : M W Value := do
  callPtr L self ((← get).tools c.name) c

/-- Without a link to read, the buffer has its zeros. -/
def fd2name (fildes : Int) : M W String := do
  loadLibc
  if fildes = 0 then return "<STDIN>"
  else if fildes = 1 then return "<STDOUT>"
  else if fildes = 2 then return "<STDERR>"
  else do
    let path ← callTool L self (.sprintf L.path "/proc/self/fd/%d" [.int fildes])
    let _ ← callTool L self (.memset L.name 0 1024)
    let name ← callTool L self (.readlink path.text L.name 1024)
    return if name.ret = -1 then "" else name.text

def stream2name (stream : Int) : M W String := do
  loadLibc
  let fildes ← callTool L self (.fileno stream)
  fd2name L self fildes.ret

/-- `pwd->pw_name` and `grp->gr_name`. -/
def nameOf (entry : Value) : M W String :=
  if entry.ret = 0 then throw .null else return entry.text

def uid2name (uid : Int) : M W String := do
  loadLibc
  let pwd ← callTool L self (.getpwuid uid)
  nameOf pwd

def gid2name (gid : Int) : M W String := do
  loadLibc
  let grp ← callTool L self (.getgrgid gid)
  nameOf grp

def direntHandler (ent : Value) : String := if ent.ret = 0 then "NULL" else ent.text

end Util

section Monitor
variable {W : Type} (L : Libc W) (self : Call → M W Value)

/-- `LOAD` of fsmon.c. -/
def LOAD (n : Name) : M W Unit :=
  modify fun m =>
    if (m.util n).isNone then { m with util := store m.util n (dlsym m.libc n) } else m

/-- A call through a pointer `name_util` of fsmon.c. -/
def callUtil (c : Call) : M W Value := do
  callPtr L self ((← get).util c.name) c

/-- `initialize`. -/
def initializeMonitor : M W Unit := do
  modify fun m => { m with libc := some .libc }
  LOAD .dprintf
  LOAD .open
  LOAD .fileno
  LOAD .dup
  match L.getenv "MONITOR_OUTPUT" (← get).world with
  | some path =>
    let fd ← callUtil L self (.open path (O_WRONLY ||| O_TRUNC ||| O_CREAT) [0o644])
    modify fun m => { m with OUTPUT := fd.ret }
  | none =>
    let fd ← callUtil L self (.fileno L.stderr)
    modify fun m => { m with OUTPUT := fd.ret }

/-- The constructor of fsmon.c, and the first lines of `FUNC`. -/
def init : M W Unit := do
  if (← get).libc.isNone then initializeMonitor L self

/-- The pointer `name_libc` of a function, looked up when it is not there. -/
def resolve (n : Name) : M W Unit :=
  modify fun m =>
    if (m.cached n).isNone then { m with cached := store m.cached n (dlsym m.libc n) } else m

/-- `dprintf_util(OUTPUT, ..)`. -/
def dprintfUtil (format : String) (args : List Arg) : M W Unit := do
  let fd := (← get).OUTPUT
  let _ ← callUtil L self (.dprintf fd format args)
  modify fun m => m.note (.log fd format args)

/-- The macro `FUNC`. The arguments of the log line are computed after the call. -/
def FUNC (c : Call) (funcname : String) (preprocess : M W σ) (fmt : String)
    (args3 : σ → Value → M W (List Arg)) : M W Value := do
  init L self
  resolve c.name
  let name ← preprocess
  let ret ← forward L self ((← get).cached c.name) c
  let args ← args3 name ret
  dprintfUtil L self (COLOR ("# %s" ++ fmt ++ "\n"))
    (.str (if funcname.isEmpty then c.name.str else funcname) :: args)
  return ret

def fscanf (stream : Int) (format : String) (ap : List Int) : M W Value := do
  resolve .vfscanf
  let ret ← forward L self ((← get).cached .vfscanf) (.vfscanf stream format ap)
  let name ← stream2name L self stream
  dprintfUtil L self (COLOR "# fscanf(\"%s\", \"%s\", ...) = %d\n")
    [.str name, .str format, .int ret.ret]
  return ret

def fprintf (stream : Int) (format : String) (ap : List Int) : M W Value := do
  resolve .vfprintf
  let ret ← forward L self ((← get).cached .vfprintf) (.vfprintf stream format ap)
  let name ← stream2name L self stream
  dprintfUtil L self (COLOR "# fprintf(\"%s\", \"%s\", ...) = %d\n")
    [.str name, .str format, .int ret.ret]
  return ret

/-- `va_arg`; an argument that was not passed could be anything. -/
def vaArg (ap : List Int) : Int := ap.headD 0

def «open» (path : String) (oflag : Nat) (ap : List Int) : M W Value := do
  resolve .open
  if oflag &&& O_CREAT = O_CREAT then
    let mode := vaArg ap
    let ret ← forward L self ((← get).cached .open) (.open path oflag [mode])
    dprintfUtil L self (COLOR "# open(\"%s\", %x, %o) = %d\n")
      [.str path, .int oflag, .int mode, .int ret.ret]
    return ret
  else
    let ret ← forward L self ((← get).cached .open) (.open path oflag [])
    dprintfUtil L self (COLOR "# open(\"%s\", %x) = %d\n") [.str path, .int oflag, .int ret.ret]
    return ret

/-- `dirfd` reads its argument. -/
def dirfd (dirp : Int) : M W Value := if dirp = 0 then throw .null else libcCall L (.dirfd dirp)

/-- `fd2name(dirfd(dirp))`. -/
def dir2name (dirp : Int) : M W String := do
  let fildes ← dirfd L dirp
  fd2name L self fildes.ret

def closedir (dirp : Int) : M W Value :=
  FUNC L self (.closedir dirp) "" (dir2name L self dirp) "(\"%s\") = %d"
    fun name ret => return [.str name, .int ret.ret]

def opendir (name : String) : M W Value :=
  FUNC L self (.opendir name) "" (pure ()) "(\"%s\") = %s"
    fun _ ret => do return [.str name, .str (← dir2name L self ret.ret)]

def readdir (dirp : Int) : M W Value :=
  FUNC L self (.readdir dirp) "" (dir2name L self dirp) "(\"%s\") = %s"
    fun name ret => return [.str name, .str (direntHandler ret)]

def creat (path : String) (mode : Int) : M W Value :=
  FUNC L self (.creat path mode) "" (pure ()) "(\"%s\", %05o) = %d"
    fun _ ret => return [.str path, .int mode, .int ret.ret]

def read (fildes buf nbyte : Int) : M W Value :=
  FUNC L self (.read fildes buf nbyte) "" (pure ()) "(\"%s\", %p, %zu) = %d"
    fun _ ret => do return [.str (← fd2name L self fildes), .int buf, .int nbyte, .int ret.ret]

def write (fildes buf nbyte : Int) : M W Value :=
  FUNC L self (.write fildes buf nbyte) "" (pure ()) "(\"%s\", %p, %zu) = %zd"
    fun _ ret => do return [.str (← fd2name L self fildes), .int buf, .int nbyte, .int ret.ret]

def dup (fildes : Int) : M W Value :=
  FUNC L self (.dup fildes) "" (pure ()) "(%d) = %d" fun _ ret => return [.int fildes, .int ret.ret]

def dup2 (fildes fildes2 : Int) : M W Value :=
  FUNC L self (.dup2 fildes fildes2) "" (pure ()) "(%d, %d) = %d"
    fun _ ret => return [.int fildes, .int fildes2, .int ret.ret]

def close (fildes : Int) : M W Value :=
  FUNC L self (.close fildes) "" (fd2name L self fildes) "(\"%s\") = %d"
    fun name ret => return [.str name, .int ret.ret]

/-- `stat_buf->st_mode` and `stat_buf->st_size`. -/
def statArgs (path : String) (statBuf : Int) (ret : Value) : M W (List Arg) := do
  if statBuf = 0 then throw .null
  else
    let w := (← get).world
    return [.str path, .int statBuf, .int (L.stMode statBuf w), .int (L.stSize statBuf w),
      .int ret.ret]

/-- `__lxstat`, which `lstat` calls. -/
def lxstat (ver : Int) (path : String) (statBuf : Int) : M W Value :=
  FUNC L self (.lxstat ver path statBuf) "lstat" (pure ())
    "(\"%s\", %p \x7bmode=%05o, size=%d\x7d) = %d" fun _ ret => statArgs L path statBuf ret

/-- `__xstat`, which `stat` calls. -/
def xstat (ver : Int) (path : String) (statBuf : Int) : M W Value :=
  FUNC L self (.xstat ver path statBuf) "stat" (pure ())
    "(\"%s\", %p \x7bmode=%05o, size=%d\x7d) = %d" fun _ ret => statArgs L path statBuf ret

def pwrite (fildes buf nbyte offset : Int) : M W Value :=
  FUNC L self (.pwrite fildes buf nbyte offset) "" (pure ()) "(\"%s\", %p, %zu, %ld) = %zd"
    fun _ ret => do
      return [.str (← fd2name L self fildes), .int buf, .int nbyte, .int offset, .int ret.ret]

def fopen (pathname mode : String) : M W Value :=
  FUNC L self (.fopen pathname mode) "" (pure ()) "(\"%s\", \"%s\") = %p"
    fun _ ret => return [.str pathname, .str mode, .int ret.ret]

/-- What `fclose` does before the call: when the stream is on `OUTPUT`, the log goes on to a
copy of `STDERR_FILENO`. -/
def keepOutput (stream : Int) : M W String := do
  let name ← stream2name L self stream
  let fildes ← callUtil L self (.fileno stream)
  if fildes.ret = (← get).OUTPUT then
    let fd ← callUtil L self (.dup 2)
    modify fun m => { m with OUTPUT := fd.ret }
  return name

def fclose (stream : Int) : M W Value :=
  FUNC L self (.fclose stream) "" (keepOutput L self stream) "(\"%s\") = %d"
    fun name ret => return [.str name, .int ret.ret]

def fread (ptr size nmemb stream : Int) : M W Value :=
  FUNC L self (.fread ptr size nmemb stream) "" (pure ()) "(%p, %zu, %zu, \"%s\") = %zu"
    fun _ ret => do
      return [.int ptr, .int size, .int nmemb, .str (← stream2name L self stream), .int ret.ret]

def fwrite (ptr size nmemb stream : Int) : M W Value :=
  FUNC L self (.fwrite ptr size nmemb stream) "" (pure ()) "(%p, %zu, %zu, \"%s\") = %zu"
    fun _ ret => do
      return [.int ptr, .int size, .int nmemb, .str (← stream2name L self stream), .int ret.ret]

def fgetc (stream : Int) : M W Value :=
  FUNC L self (.fgetc stream) "" (pure ()) "(\"%s\") = %d"
    fun _ ret => do return [.str (← stream2name L self stream), .int ret.ret]

def fgets (s size stream : Int) : M W Value :=
  FUNC L self (.fgets s size stream) "" (pure ()) "(%p, %d, \"%s\") = %p"
    fun _ ret => do
      return [.int s, .int size, .str (← stream2name L self stream), .int ret.ret]

def chdir (path : String) : M W Value :=
  FUNC L self (.chdir path) "" (pure ()) "(\"%s\") = %d"
    fun _ ret => return [.str path, .int ret.ret]

def chown (path : String) (owner group : Int) : M W Value :=
  FUNC L self (.chown path owner group) "" (pure ()) "(\"%s\", %u(%s), %u(%s)) = %d"
    fun _ ret => do
      return [.str path, .int owner, .str (← uid2name L self owner), .int group,
        .str (← gid2name L self group), .int ret.ret]

def chmod (path : String) (mode : Int) : M W Value :=
  FUNC L self (.chmod path mode) "" (pure ()) "(\"%s\", %o) = %d"
    fun _ ret => return [.str path, .int mode, .int ret.ret]

def remove (pathname : String) : M W Value :=
  FUNC L self (.remove pathname) "" (pure ()) "(\"%s\") = %d"
    fun _ ret => return [.str pathname, .int ret.ret]

def rename (old new : String) : M W Value :=
  FUNC L self (.rename old new) "" (pure ()) "(\"%s\", \"%s\") = %d"
    fun _ ret => return [.str old, .str new, .int ret.ret]

def link (path1 path2 : String) : M W Value :=
  FUNC L self (.link path1 path2) "" (pure ()) "(\"%s\", \"%s\") = %d"
    fun _ ret => return [.str path1, .str path2, .int ret.ret]

def unlink (path : String) : M W Value :=
  FUNC L self (.unlink path) "" (pure ()) "(\"%s\") = %d"
    fun _ ret => return [.str path, .int ret.ret]

/-- `%s` of a buffer, as it is after the call. -/
def bufText (buf : Int) : M W String := do
  match L.string buf (← get).world with
  | some s => return s
  | none => throw .wild

/-- Nothing puts a zero behind what `readlink` reads. -/
def readlink (path : String) (buf bufsize : Int) : M W Value :=
  FUNC L self (.readlink path buf bufsize) "" (pure ()) "(\"%s\", %p (\"%s\"), %zu) = %zd"
    fun _ ret => do
      return [.str path, .int buf, .str (← bufText L buf), .int bufsize, .int ret.ret]

def symlink (path1 path2 : String) : M W Value :=
  FUNC L self (.symlink path1 path2) "" (pure ()) "(\"%s\", \"%s\") = %d"
    fun _ ret => return [.str path1, .str path2, .int ret.ret]

def mkdir (path : String) (mode : Int) : M W Value :=
  FUNC L self (.mkdir path mode) "" (pure ()) "(\"%s\", %o) = %d"
    fun _ ret => return [.str path, .int mode, .int ret.ret]

def rmdir (path : String) : M W Value :=
  FUNC L self (.rmdir path) "" (pure ()) "(\"%s\") = %d"
    fun _ ret => return [.str path, .int ret.ret]

/-- A call by name, which the dynamic linker takes to the library where it has the function. -/
def wrapper : Call → M W Value
  | .fscanf stream format ap => fscanf L self stream format ap
  | .fprintf stream format ap => fprintf L self stream format ap
  | .open path oflag ap => «open» L self path oflag ap
  | .closedir dirp => closedir L self dirp
  | .opendir name => opendir L self name
  | .readdir dirp => readdir L self dirp
  | .creat path mode => creat L self path mode
  | .read fildes buf nbyte => read L self fildes buf nbyte
  | .write fildes buf nbyte => write L self fildes buf nbyte
  | .dup fildes => dup L self fildes
  | .dup2 fildes fildes2 => dup2 L self fildes fildes2
  | .close fildes => close L self fildes
  | .lxstat ver path statBuf => lxstat L self ver path statBuf
  | .xstat ver path statBuf => xstat L self ver path statBuf
  | .pwrite fildes buf nbyte offset => pwrite L self fildes buf nbyte offset
  | .fopen pathname mode => fopen L self pathname mode
  | .fclose stream => fclose L self stream
  | .fread ptr size nmemb stream => fread L self ptr size nmemb stream
  | .fwrite ptr size nmemb stream => fwrite L self ptr size nmemb stream
  | .fgetc stream => fgetc L self stream
  | .fgets s size stream => fgets L self s size stream
  | .chdir path => chdir L self path
  | .chown path owner group => chown L self path owner group
  | .chmod path mode => chmod L self path mode
  | .remove pathname => remove L self pathname
  | .rename old new => rename L self old new
  | .link path1 path2 => link L self path1 path2
  | .unlink path => unlink L self path
  | .readlink path buf bufsize => readlink L self path buf bufsize
  | .symlink path1 path2 => symlink L self path1 path2
  | .mkdir path mode => mkdir L self path mode
  | .rmdir path => rmdir L self path
  | c => libcCall L c

end Monitor

section Run
variable {W : Type} (L : Libc W)

/-- A call with a stack for that many calls of wrappers within wrappers. -/
def invoke : Nat → Call → M W Value
  | 0, _ => throw .stack
  | depth + 1, c => wrapper L (invoke depth) c

/-- What happens to the library: its constructors run, or one of its functions is called. -/
inductive Step
  | init
  | loadLibc
  | call (c : Call)
deriving DecidableEq

def step (depth : Nat) : Step → M W Unit
  | .init => init L (invoke L depth)
  | .loadLibc => loadLibc
  | .call c => do
    let _ ← invoke L depth c

/-- The process before any of its code has run. -/
def start (w : W) (errno : Int) : Machine W := { world := w, errno := errno }

end Run

end UnixProgramming.Fsmon
