import UnixProgramming.Lib.Memory
import UnixProgramming.Lib.Text

namespace UnixProgramming.Netstat
open Lib

def MAX_PROCESS_NUM : Nat := 10000
def MAX_CONN_NUM : Nat := 1024

/-- The entries of `TYPE`. -/
inductive ConnType
  | tcp
  | tcp6
  | udp
  | udp6
deriving DecidableEq

def ConnType.name : ConnType → String
  | .tcp => "tcp"
  | .tcp6 => "tcp6"
  | .udp => "udp"
  | .udp6 => "udp6"

/-- `type & 1`. -/
def ConnType.v6 : ConnType → Bool
  | .tcp | .udp => false
  | .tcp6 | .udp6 => true

/-- The words of an address. -/
def ConnType.words (type : ConnType) : Nat := if type.v6 then 4 else 1

/-- `struct CONN`. -/
structure Conn where
  localIp : List Char
  rmtIp : List Char
  type : String
  localPort : BitVec 16
  rmtPort : BitVec 16
  inode : BitVec 32
deriving DecidableEq

/-- `struct PROCINFO`; `cmdline` is the buffer up to the zero that `read_cmdline` puts there. -/
structure ProcInfo where
  inode : BitVec 32
  pid : BitVec 32
  cmdline : List Char

/-- The locals of `read_conn` that `fscanf` stores into. -/
structure ConnVars where
  localIp : Nat → BitVec 32
  rmtIp : Nat → BitVec 32
  localPort : BitVec 32
  rmtPort : BitVec 32
  inode : BitVec 32

/-- The variable and the input after a conversion: nothing is stored on a failure. -/
def scanInto (old : BitVec 32) : Scan (BitVec 32) → BitVec 32 × List Char
  | .got v rest => (v, rest)
  | .mismatch rest => (old, rest)
  | .eof => (old, [])

/-- `%u:` at the head of a line; `none` for `EOF`. -/
def scanSlot (s : List Char) : Option (List Char) :=
  match scanUnsigned 10 none s with
  | .eof => none
  | .mismatch rest => some rest
  | .got _ rest =>
    match scanLit ':' rest with
    | .got _ rest => some rest
    | .mismatch rest => some rest
    | .eof => some []

/-- `k` rounds of `%08x`, from `ip[i]` on. -/
def scanAddr : Nat → Nat → (Nat → BitVec 32) → List Char → (Nat → BitVec 32) × List Char
  | 0, _, ip, s => (ip, s)
  | k + 1, i, ip, s =>
    let (word, s) := scanInto (ip i) (scanUnsigned 16 (some 8) s)
    scanAddr k (i + 1) (fun j => if j = i then word else ip j) s

/-- `:%04x`. -/
def scanPort (old : BitVec 32) (s : List Char) : BitVec 32 × List Char :=
  match scanLit ':' s with
  | .got _ s => scanInto old (scanUnsigned 16 (some 4) s)
  | .mismatch s => (old, s)
  | .eof => (old, [])

/-- `%s` into `str`, `n` times; `none` is a word that does not fit. -/
def skipWords : Nat → List Char → Option (List Char)
  | 0, s => some s
  | n + 1, s =>
    match scanWord s with
    | .got word s => if 512 ≤ word.length then none else skipWords n s
    | .mismatch s => skipWords n s
    | .eof => skipWords n []

/-- The rest of a line behind its slot. -/
def scanConn (type : ConnType) (v : ConnVars) (s : List Char) : Option (ConnVars × List Char) :=
  let (localIp, s) := scanAddr type.words 0 v.localIp s
  let (localPort, s) := scanPort v.localPort s
  let (rmtIp, s) := scanAddr type.words 0 v.rmtIp s
  let (rmtPort, s) := scanPort v.rmtPort s
  match skipWords 6 s with
  | none => none
  | some s =>
    let (inode, s) := scanInto v.inode (scanUnsigned 10 none s)
    let s := match fgets 512 s with
      | some (_, s) => s
      | none => []
    some (⟨localIp, rmtIp, localPort, rmtPort, inode⟩, s)

/-- The bytes of an address in memory, as `inet_ntop` finds them. -/
def addrBytes (words : Nat) (ip : Nat → BitVec 32) : List Byte :=
  (List.range words).flatMap fun i => (List.range 4).map (byteOf (ip i))

section
variable (ntop : Bool → List Byte → List Char)

def connOf (type : ConnType) (v : ConnVars) : Conn where
  localIp := ntop type.v6 (addrBytes type.words v.localIp)
  rmtIp := ntop type.v6 (addrBytes type.words v.rmtIp)
  type := type.name
  localPort := v.localPort.setWidth 16
  rmtPort := v.rmtPort.setWidth 16
  inode := v.inode

/-- The loop of `read_conn`; `idx` is the length of `list`. Every round takes a character,
so the length of the text bounds the rounds. `none` is an access out of bounds. -/
def connLoop (type : ConnType) : Nat → ConnVars → List Char → List Conn → Option (List Conn)
  | 0, _, _, _ => none
  | fuel + 1, v, s, list =>
    match scanSlot s with
    | none => some list
    | some s =>
      match scanConn type v s with
      | none => none
      | some (v, s) =>
        if MAX_CONN_NUM ≤ list.length then none
        else connLoop type fuel v s (list ++ [connOf ntop type v])

/-- `read_conn`: the entries it writes, whose number it returns. `files` are the readable
files and `stack` what the locals hold before. -/
def readConn (files : String → Option (List Char)) (stack : ConnVars) (type : ConnType) :
    Option (List Conn) :=
  match files ("/proc/net/" ++ type.name) with
  | none => none
  | some text =>
    let s := match fgets 512 text with
      | some (_, s) => s
      | none => []
    connLoop ntop type (s.length + 1) stack s []

end

/-- An entry of `/proc/[pid]/fd` and what `readlink` tells of it, `none` for -1. -/
structure FdEntry where
  name : String
  link : Option (List Char)

/-- An entry of `/proc`: its open files, `none` if the directory cannot be opened, and the
contents of `cmdline`. -/
structure ProcEntry where
  name : String
  fd : Option (List FdEntry)
  cmdline : Option (List Char)

def isStrDigit (str : String) : Bool := str.toList.all (isDigitIn 10)

/-- The body of the loop of `read_cmdline` for the indices from `n` down to 1. -/
def blankFrom : Nat → List Char → List Char
  | 0, cmdline => cmdline
  | n + 1, cmdline =>
    let c := cmdline.getD (n + 1) '\x00'
    blankFrom n (if c = '\x00' ∨ isSpace c then cmdline.set (n + 1) ' ' else cmdline)

/-- `read_cmdline` on the contents of the file. Without a byte the loop leaves the buffer at
its front, and with 512 the zero is written behind it. -/
def readCmdline : Option (List Char) → Option (List Char)
  | none => none
  | some text =>
    let cmdline := text.take 512
    if cmdline.length = 0 ∨ 512 ≤ cmdline.length then none
    else some (blankFrom (cmdline.length - 1) cmdline)

/-- `tgpath` as a string: zeros and over them what `readlink` stores. A text that fills the
buffer has no end. -/
def tgpath : Option (List Char) → Option (List Char)
  | none => some []
  | some text => if 256 ≤ text.length then none else some text

/-- Literal text of a format. -/
def scanText : List Char → List Char → Scan Unit
  | [], s => .got () s
  | c :: cs, s =>
    match scanLit c s with
    | .got _ s => scanText cs s
    | .mismatch s => .mismatch s
    | .eof => .eof

/-- `socket:[%u]`, up to its one conversion. -/
def scanSocket (s : List Char) : Scan (BitVec 32) :=
  match scanText "socket:[".toList s with
  | .got _ s => scanUnsigned 10 none s
  | .mismatch s => .mismatch s
  | .eof => .eof

/-- `inode` if the result of `sscanf` is not zero. `EOF` is not zero, and leaves `inode` as the
stack has it. -/
def socketInode (stale : BitVec 32) (s : List Char) : Option (BitVec 32) :=
  match scanSocket s with
  | .got inode _ => some inode
  | .mismatch _ => none
  | .eof => some stale

section
variable (stale : Nat → BitVec 32) (room : Nat)

/-- The inner loop of `read_fd`. `stale idx` is what `inode` holds before it is set while
`idx` entries are there. `read_cmdline` leaves its file open: besides the two directories, a
process may have `room` more files open, and then `fopen` returns `NULL` to `fread`. -/
def readLinks (p : ProcEntry) : List FdEntry → List ProcInfo → Option (List ProcInfo)
  | [], info => some info
  | f :: rest, info =>
    if !isStrDigit f.name then readLinks p rest info
    else match tgpath f.link with
      | none => none
      | some text =>
        match socketInode (stale info.length) text with
        | none => readLinks p rest info
        | some inode =>
          if MAX_PROCESS_NUM ≤ info.length then none
          else if room ≤ info.length then none
          else match readCmdline p.cmdline with
            | none => none
            | some cmdline => readLinks p rest (info ++ [⟨inode, atoi p.name, cmdline⟩])

/-- `read_fd`, over the entries of `/proc`. -/
def readFd : List ProcEntry → List ProcInfo → Option (List ProcInfo)
  | [], info => some info
  | p :: rest, info =>
    if !isStrDigit p.name then readFd rest info
    else match p.fd with
      | none => readFd rest info
      | some fd =>
        match readLinks stale room p fd info with
        | none => none
        | some info => readFd rest info

end

/-- A buffer as the string it holds. -/
def cString (s : List Char) : List Char := s.takeWhile (· ≠ '\x00')

/-- The address column: `:*` for port zero. -/
def addrText (ip : List Char) (port : BitVec 16) : List Char :=
  if port ≠ 0 then ip ++ ':' :: Nat.toDigits 10 port.toNat else ip ++ [':', '*']

/-- A printed row; without an owner it ends in `-`. -/
structure Row where
  type : String
  localAddr : List Char
  rmtAddr : List Char
  owner : Option (BitVec 32 × List Char)

section
variable (regexec : List Char → List Char → Bool) (info : List ProcInfo) (filter : List Char)

/-- The inner loop of `show`. -/
def findOwner (conn : Conn) : Option ProcInfo :=
  info.find? fun p => conn.inode == p.inode && regexec filter (cString p.cmdline)

/-- One round of `show`: the row of a connection, if it is printed. -/
def showConn (conn : Conn) : Option Row :=
  let owner := findOwner regexec info filter conn
  if owner.isSome || filter.isEmpty then
    some ⟨conn.type, addrText conn.localIp conn.localPort, addrText conn.rmtIp conn.rmtPort,
      owner.map fun p => (p.pid, cString p.cmdline)⟩
  else none

/-- `show` with a filter that `regcomp` accepts. -/
def «show» (conns : List Conn) : List Row := conns.filterMap (showConn regexec info filter)

end

end UnixProgramming.Netstat
