import UnixProgramming.Libmini.Signal

namespace UnixProgramming.Libmini
open Lib

/-- The `gensys` lines. -/
inductive Stub
  | read | write | «open» | close | mmap | mprotect | munmap | rt_sigaction | rt_sigprocmask
  | pipe | dup | dup2 | pause | nanosleep | alarm | fork | exit | getcwd | chdir | rename
  | mkdir | rmdir | creat | link | unlink | readlink | chmod | chown | umask | gettimeofday
  | getuid | getgid | setuid | setgid | geteuid | getegid | rt_sigpending
deriving DecidableEq

def Stub.number : Stub → Word
  | .read => 0 | .write => 1 | .open => 2 | .close => 3 | .mmap => 9 | .mprotect => 10
  | .munmap => 11 | .rt_sigaction => 13 | .rt_sigprocmask => 14 | .pipe => 22 | .dup => 32
  | .dup2 => 33 | .pause => 34 | .nanosleep => 35 | .alarm => 37 | .fork => 57 | .exit => 60
  | .getcwd => 79 | .chdir => 80 | .rename => 82 | .mkdir => 83 | .rmdir => 84 | .creat => 85
  | .link => 86 | .unlink => 88 | .readlink => 89 | .chmod => 90 | .chown => 92 | .umask => 95
  | .gettimeofday => 96 | .getuid => 102 | .getgid => 104 | .setuid => 105 | .setgid => 106
  | .geteuid => 107 | .getegid => 108 | .rt_sigpending => 127

/-- A pointer: an address, or a string of the program by its text. -/
inductive Ptr
  | addr (a : Word)
  | str (s : List Char)
deriving DecidableEq

def NULL : Ptr := .addr 0

/-- The types of parameters and results, by how much of a register they take. -/
inductive CType
  | int
  | long
  | ptr
deriving DecidableEq

abbrev CType.Val : CType → Type
  | .int => CInt
  | .long => Word
  | .ptr => Ptr

inductive Arg
  | int (v : CInt)
  | long (v : Word)
  | ptr (p : Ptr)
deriving DecidableEq

/-- A system call: its number and its arguments. -/
structure Trap where
  nr : Word
  args : List Arg
deriving DecidableEq

/-- `errno`, and the system calls so far. -/
structure Proc where
  errno : Word
  calls : List Trap

inductive Failure
  | hang
  | bounds

abbrev LibM := EStateM Failure Proc

def setErrno (v : Word) : LibM Unit := modify ({ · with errno := v })

/-- `RET_WRAP`, which `WRAPPER_RETval` and `WRAPPER_RETptr` also spell out. -/
def RET_WRAP {α : Type} (type : Word → α) (onFail : α) (ret : Word) : LibM α := do
  setErrno 0
  if ret.slt 0 then
    setErrno (-ret)
    pure onFail
  else
    pure (type ret)

/-- The cast of a `long` to `int`, `unsigned int`, `pid_t` or `uid_t`. -/
def toInt (ret : Word) : CInt := ret.setWidth 32

section
variable (kernel : List Trap → Trap → Word)

/-- A stub: what the kernel answers may depend on all the calls before. -/
def sys (s : Stub) (args : List Arg) : LibM Word := fun p =>
  .ok (kernel p.calls ⟨s.number, args⟩) { p with calls := p.calls ++ [⟨s.number, args⟩] }

/-- The body of a wrapper that calls the stub `s`. -/
def wrapper {α : Type} (s : Stub) (args : List Arg) (type : Word → α) (onFail : α) : LibM α := do
  let ret ← sys kernel s args
  RET_WRAP type onFail ret

/-- `sizeof(sigset_t)`. -/
def sigsetsize : Arg := .long 8

def sigprocmask (how : CInt) (set oldset : Ptr) : LibM CInt :=
  wrapper kernel .rt_sigprocmask [.int how, .ptr set, .ptr oldset, sigsetsize] toInt (-1)

def alarm (seconds : CInt) : LibM CInt := wrapper kernel .alarm [.int seconds] toInt (-1)

def sigpending (set : Ptr) : LibM CInt :=
  wrapper kernel .rt_sigpending [.ptr set, sigsetsize] toInt (-1)

def read (fd : CInt) (buf : Ptr) (count : Word) : LibM Word :=
  wrapper kernel .read [.int fd, .ptr buf, .long count] id (-1)

def write (fd : CInt) (buf : Ptr) (count : Word) : LibM Word :=
  wrapper kernel .write [.int fd, .ptr buf, .long count] id (-1)

def close (fd : CInt) : LibM CInt := wrapper kernel .close [.int fd] toInt (-1)

def mmap (addr : Ptr) (len : Word) (prot flags fd : CInt) (off : Word) : LibM Ptr :=
  wrapper kernel .mmap [.ptr addr, .long len, .int prot, .int flags, .int fd, .long off] .addr NULL

def mprotect (addr : Ptr) (len : Word) (prot : CInt) : LibM CInt :=
  wrapper kernel .mprotect [.ptr addr, .long len, .int prot] toInt (-1)

def munmap (addr : Ptr) (len : Word) : LibM CInt :=
  wrapper kernel .munmap [.ptr addr, .long len] toInt (-1)

def pipe (filedes : Ptr) : LibM CInt := wrapper kernel .pipe [.ptr filedes] toInt (-1)

def dup (filedes : CInt) : LibM CInt := wrapper kernel .dup [.int filedes] toInt (-1)

def dup2 (oldfd newfd : CInt) : LibM CInt :=
  wrapper kernel .dup2 [.int oldfd, .int newfd] toInt (-1)

def pause : LibM CInt := wrapper kernel .pause [] toInt (-1)

/-- The body calls `nanosleep` itself where the others call their stub; `depth` calls may nest. -/
def nanosleep : Nat → Ptr → Ptr → LibM CInt
  | 0, _, _ => throw .hang
  | depth + 1, rqtp, rmtp => do
    let ret ← nanosleep depth rqtp rmtp
    RET_WRAP toInt (-1) (ret.signExtend 64)

def fork : LibM CInt := wrapper kernel .fork [] toInt (-1)

def getcwd (buf : Ptr) (size : Word) : LibM Ptr :=
  wrapper kernel .getcwd [.ptr buf, .long size] .addr NULL

def chdir (pathname : Ptr) : LibM CInt := wrapper kernel .chdir [.ptr pathname] toInt (-1)

def rename (oldname newname : Ptr) : LibM CInt :=
  wrapper kernel .rename [.ptr oldname, .ptr newname] toInt (-1)

def mkdir (pathname : Ptr) (mode : CInt) : LibM CInt :=
  wrapper kernel .mkdir [.ptr pathname, .int mode] toInt (-1)

def rmdir (pathname : Ptr) : LibM CInt := wrapper kernel .rmdir [.ptr pathname] toInt (-1)

def creat (pathname : Ptr) (mode : CInt) : LibM CInt :=
  wrapper kernel .creat [.ptr pathname, .int mode] toInt (-1)

def link (oldname newname : Ptr) : LibM CInt :=
  wrapper kernel .link [.ptr oldname, .ptr newname] toInt (-1)

def unlink (pathname : Ptr) : LibM CInt := wrapper kernel .unlink [.ptr pathname] toInt (-1)

def readlink (path buf : Ptr) (bufsz : Word) : LibM Word :=
  wrapper kernel .readlink [.ptr path, .ptr buf, .long bufsz] id (-1)

def chmod (filename : Ptr) (mode : CInt) : LibM CInt :=
  wrapper kernel .chmod [.ptr filename, .int mode] toInt (-1)

def chown (filename : Ptr) (user group : CInt) : LibM CInt :=
  wrapper kernel .chown [.ptr filename, .int user, .int group] toInt (-1)

def umask (mask : CInt) : LibM CInt := wrapper kernel .umask [.int mask] toInt (-1)

def gettimeofday (tv tz : Ptr) : LibM CInt :=
  wrapper kernel .gettimeofday [.ptr tv, .ptr tz] toInt (-1)

def getuid : LibM CInt := wrapper kernel .getuid [] toInt (-1)

def getgid : LibM CInt := wrapper kernel .getgid [] toInt (-1)

def setuid (uid : CInt) : LibM CInt := wrapper kernel .setuid [.int uid] toInt (-1)

def setgid (gid : CInt) : LibM CInt := wrapper kernel .setgid [.int gid] toInt (-1)

def geteuid : LibM CInt := wrapper kernel .geteuid [] toInt (-1)

def getegid : LibM CInt := wrapper kernel .getegid [] toInt (-1)

/-- `strlen`. -/
def strlen : List Char → Word
  | [] => 0
  | _ :: s => 1 + strlen s

def PERRMSG_MIN : Word := 0
def PERRMSG_MAX : Word := 34

def errmsg : List String :=
  ["Success", "Operation not permitted", "No such file or directory", "No such process",
    "Interrupted system call", "I/O error", "No such device or address",
    "Argument list too long", "Exec format error", "Bad file number", "No child processes",
    "Try again", "Out of memory", "Permission denied", "Bad address", "Block device required",
    "Device or resource busy", "File exists", "Cross-device link", "No such device",
    "Not a directory", "Is a directory", "Invalid argument", "File table overflow",
    "Too many open files", "Not a typewriter", "Text file busy", "File too large",
    "No space left on device", "Illegal seek", "Read-only file system", "Too many links",
    "Broken pipe", "Math argument out of domain of func", "Math result not representable"]

/-- `errmsg[i]`. -/
def errmsgAt (i : Word) : LibM (List Char) :=
  if i.toInt < 0 then throw .bounds
  else
    match errmsg[i.toNat]? with
    | none => throw .bounds
    | some text => pure text.toList

/-- `write(2, s, strlen(s))`. -/
def writeText (s : List Char) : LibM Unit := do
  let _ ← write kernel 2 (.str s) (strlen s)

/-- `none` is a `NULL` prefix. The test reads `errno` again, which the calls before it have set. -/
def perror (pre : Option (List Char)) : LibM Unit := do
  let backup := (← get).errno
  match pre with
  | none => pure ()
  | some s =>
    writeText kernel s
    let _ ← write kernel 2 (.str [':', ' ']) 2
  let errno := (← get).errno
  if errno.slt PERRMSG_MIN || PERRMSG_MAX.slt errno then
    writeText kernel "Unknown".toList
  else
    let text ← errmsgAt backup
    writeText kernel text
  let _ ← write kernel 2 (.str ['\n']) 1

end

/-- The wrappers that return a value, without `sigaction`, which does more than call its stub. -/
inductive Wrapper
  | sigprocmask | alarm | sigpending | read | write | close | mmap | mprotect | munmap | pipe
  | dup | dup2 | pause | nanosleep | fork | getcwd | chdir | rename | mkdir | rmdir | creat
  | link | unlink | readlink | chmod | chown | umask | gettimeofday | getuid | getgid | setuid
  | setgid | geteuid | getegid
deriving DecidableEq

def Wrapper.params : Wrapper → List CType
  | .sigprocmask => [.int, .ptr, .ptr]
  | .alarm | .close | .dup | .umask | .setuid | .setgid => [.int]
  | .sigpending | .pipe | .chdir | .rmdir | .unlink => [.ptr]
  | .read | .write => [.int, .ptr, .long]
  | .mmap => [.ptr, .long, .int, .int, .int, .long]
  | .mprotect => [.ptr, .long, .int]
  | .munmap | .getcwd => [.ptr, .long]
  | .dup2 => [.int, .int]
  | .nanosleep | .rename | .link | .gettimeofday => [.ptr, .ptr]
  | .mkdir | .creat | .chmod => [.ptr, .int]
  | .readlink => [.ptr, .ptr, .long]
  | .chown => [.ptr, .int, .int]
  | .pause | .fork | .getuid | .getgid | .geteuid | .getegid => []

def Wrapper.ret : Wrapper → CType
  | .read | .write | .readlink => .long
  | .mmap | .getcwd => .ptr
  | _ => .int

/-- Arguments for parameters of the types `ts`. -/
def Args : List CType → Type
  | [] => Unit
  | t :: ts => t.Val × Args ts

/-- The call of a wrapper, in which at most `depth` calls nest. -/
def Wrapper.exec (kernel : List Trap → Trap → Word) (depth : Nat) :
    (w : Wrapper) → Args w.params → LibM w.ret.Val
  | .sigprocmask, (how, set, oldset, _) => Libmini.sigprocmask kernel how set oldset
  | .alarm, (seconds, _) => Libmini.alarm kernel seconds
  | .sigpending, (set, _) => Libmini.sigpending kernel set
  | .read, (fd, buf, count, _) => Libmini.read kernel fd buf count
  | .write, (fd, buf, count, _) => Libmini.write kernel fd buf count
  | .close, (fd, _) => Libmini.close kernel fd
  | .mmap, (addr, len, prot, flags, fd, off, _) => Libmini.mmap kernel addr len prot flags fd off
  | .mprotect, (addr, len, prot, _) => Libmini.mprotect kernel addr len prot
  | .munmap, (addr, len, _) => Libmini.munmap kernel addr len
  | .pipe, (filedes, _) => Libmini.pipe kernel filedes
  | .dup, (filedes, _) => Libmini.dup kernel filedes
  | .dup2, (oldfd, newfd, _) => Libmini.dup2 kernel oldfd newfd
  | .pause, _ => Libmini.pause kernel
  | .nanosleep, (rqtp, rmtp, _) => Libmini.nanosleep depth rqtp rmtp
  | .fork, _ => Libmini.fork kernel
  | .getcwd, (buf, size, _) => Libmini.getcwd kernel buf size
  | .chdir, (pathname, _) => Libmini.chdir kernel pathname
  | .rename, (oldname, newname, _) => Libmini.rename kernel oldname newname
  | .mkdir, (pathname, mode, _) => Libmini.mkdir kernel pathname mode
  | .rmdir, (pathname, _) => Libmini.rmdir kernel pathname
  | .creat, (pathname, mode, _) => Libmini.creat kernel pathname mode
  | .link, (oldname, newname, _) => Libmini.link kernel oldname newname
  | .unlink, (pathname, _) => Libmini.unlink kernel pathname
  | .readlink, (path, buf, bufsz, _) => Libmini.readlink kernel path buf bufsz
  | .chmod, (filename, mode, _) => Libmini.chmod kernel filename mode
  | .chown, (filename, user, group, _) => Libmini.chown kernel filename user group
  | .umask, (mask, _) => Libmini.umask kernel mask
  | .gettimeofday, (tv, tz, _) => Libmini.gettimeofday kernel tv tz
  | .getuid, _ => Libmini.getuid kernel
  | .getgid, _ => Libmini.getgid kernel
  | .setuid, (uid, _) => Libmini.setuid kernel uid
  | .setgid, (gid, _) => Libmini.setgid kernel gid
  | .geteuid, _ => Libmini.geteuid kernel
  | .getegid, _ => Libmini.getegid kernel

end UnixProgramming.Libmini
