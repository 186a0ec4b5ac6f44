import UnixProgramming.Lib.Columns
import UnixProgramming.Lib.Getopt
import UnixProgramming.Lib.Numeral
import UnixProgramming.Netstat.Main

namespace UnixProgramming.Netstat
open Lib

def optstring : List Char := "tu".toList

def opts : List (List Char × Char) := [("tcp".toList, 't'), ("udp".toList, 'u')]

def TYPE : List ConnType := [.tcp, .tcp6, .udp, .udp6]

/-- What netstat runs on: the readable files, `/proc`, how many files it can have open besides the
standard streams and two directories, the functions of libc for addresses and expressions, and what
its stack holds before. -/
structure World where
  files : String → Option (List Char)
  proc : List ProcEntry
  room : Nat
  ntop : Bool → List Byte → List Char
  regcomp : List Char → Bool
  regexec : List Char → List Char → Bool
  stack : Nat → ConnVars
  stale : Nat → BitVec 32

/-- How the option loop of `main` ends. -/
inductive Choice
  | fault
  | usage
  | types (type : BitVec 32)

/-- The option loop. No entry of zeros ends `opts`, so the search for a name that is not in it
goes on behind it. -/
def chooseTypes : BitVec 32 → List Opt → Choice
  | type, [] => .types type
  | type, .code c :: rest =>
    if c = 't' then chooseTypes (type &&& 0x3) rest
    else if c = 'u' then chooseTypes (type &&& 0xc) rest
    else .usage
  | _, .invalid :: _ => .usage
  | _, .unlisted :: _ => .fault

/-- `%-8s%-32s%-32s%s`. -/
def fourColumns (proto localAddr rmtAddr last : List Char) : List Char :=
  columns [(8, proto), (32, localAddr), (32, rmtAddr)] last

def usage (argv0 : List Char) : List Char :=
  argv0 ++ " [-t|--tcp] [-u|--udp] [filter-string]\n".toList

/-- The two lines over the connections of a protocol. -/
def heading (flag udp : Bool) : List Char :=
  (if flag then ['\n'] else []) ++ "List of ".toList ++ (if udp then "UDP" else "TCP").toList ++
    " connections:\n".toList ++
    fourColumns "Proto".toList "Local Address".toList "Foreign Address".toList
      "PID/Program name and arguments\n".toList

/-- The last column: `%d/%s` or `-`. -/
def ownerText : Option (BitVec 32 × List Char) → List Char
  | some (pid, cmdline) => (literal pid.toInt).toList ++ '/' :: cmdline
  | none => ['-']

/-- A row as `show` prints it. -/
def Row.text (row : Row) : List Char :=
  fourColumns row.type.toList row.localAddr row.rmtAddr (ownerText row.owner ++ ['\n'])

section
variable (w : World)

/-- `read_conn` and `show` for one of the types, when `read_conn` has left `opened` files open. So
has `read_cmdline`, one for each entry; only the directory of the last process is closed. -/
def listType (info : List ProcInfo) (filter : List Char) (opened i : Nat) (t : ConnType) :
    Option (List Char) :=
  if w.room < info.length + opened then none
  else match readConn w.ntop w.files (w.stack i) t with
    | none => none
    | some conns =>
      if w.regcomp filter then some ((«show» w.regexec info filter conns).flatMap Row.text)
      else none

/-- The loop over `TYPE` from `i` on. -/
def typeLoop (info : List ProcInfo) (filter : List Char) (type : BitVec 32) :
    List ConnType → Nat → Nat → Bool → Option (List Char)
  | [], _, _, _ => some []
  | t :: rest, opened, i, flag =>
    if type >>> i &&& 0x1 = 0 then typeLoop info filter type rest opened (i + 1) flag
    else
      let title := if i &&& 0x1 = 0 then heading flag (i >>> 1 ≠ 0) else []
      let flag := if i &&& 0x1 = 0 then true else flag
      match listType w info filter opened i t with
      | none => none
      | some rows => (typeLoop info filter type rest (opened + 1) (i + 1) flag).map fun out =>
        title ++ (rows ++ out)

/-- `main` on the words behind `argv[0]`: what it prints and returns. -/
def main (posix : Bool) (argv0 : List Char) (args : List (List Char)) : Option (List Char × Nat) :=
  let (found, operands) := getoptLong optstring opts posix args
  match chooseTypes 0xF found with
  | .fault => none
  | .usage => some (usage argv0, 1)
  | .types type =>
    match readFd w.stale w.room w.proc [] with
    | none => none
    | some info => (typeLoop w info (operands.headD []) type TYPE 0 0 false).map fun out => (out, 0)

end

end UnixProgramming.Netstat
