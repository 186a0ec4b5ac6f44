import UnixProgramming.Netstat.Main

namespace UnixProgramming.Netstat
open Lib

/-- The `cmdline` of a `struct PROCINFO`, with all its bytes. -/
abbrev CmdBuf := Vector Char 512

inductive Fault
  | bounds
  | hang

/-- `cmdline[i]`. -/
def CmdBuf.at (b : CmdBuf) (i : Int) : Except Fault Char :=
  if h : 0 ≤ i ∧ i < 512 then .ok (b.get ⟨i.toNat, by omega⟩) else .error .bounds

/-- `cmdline[i] = c`. -/
def CmdBuf.put (b : CmdBuf) (i : Int) (c : Char) : Except Fault CmdBuf :=
  if h : 0 ≤ i ∧ i < 512 then .ok (b.set i.toNat c (by omega)) else .error .bounds

/-- `fread` of the whole buffer from a file that holds `text`: the buffer and the count. -/
def CmdBuf.fread (b : CmdBuf) (text : List Char) : CmdBuf × Int :=
  (.ofFn fun i => text[i.val]?.getD (b.get i), min text.length 512)

/-- The loop of `read_cmdline`, `n` as it is before its test. -/
def blankLoop : Nat → Int → CmdBuf → Except Fault CmdBuf
  | 0, _, _ => .error .hang
  | fuel + 1, n, b => do
    let n := n - 1
    if n = 0 then
      .ok b
    else
      let c ← b.at n
      let b ← if c = '\x00' || isSpace c then b.put n ' ' else .ok b
      blankLoop fuel n b

/-- `read_cmdline` on a file that holds `text`, into a buffer that holds `stale`. -/
def readCmdlineBuf (fuel : Nat) (stale : CmdBuf) (text : List Char) : Except Fault CmdBuf := do
  let (b, n) := stale.fread text
  let b ← b.put n '\x00'
  blankLoop fuel n b

end UnixProgramming.Netstat
