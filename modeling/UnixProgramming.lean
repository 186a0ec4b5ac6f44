import UnixProgramming.Lib.Memory
import UnixProgramming.Lib.Wp
import UnixProgramming.Lib.Text
import UnixProgramming.Sdb.Elf
import UnixProgramming.Sdb.Host
import UnixProgramming.Sdb.Debugger
import UnixProgramming.Sdb.Commands
import UnixProgramming.Sdb.Proofs.Moves
import UnixProgramming.Sdb.Proofs.Edits
import UnixProgramming.Sdb.Machine
import UnixProgramming.Sdb.Proofs.Session
import UnixProgramming.Lib.Roster
import UnixProgramming.Sdb.Proofs.Store
import UnixProgramming.Sdb.Proofs.Kills
import UnixProgramming.Sdb.Proofs.Tracee
import UnixProgramming.Sdb.Proofs.Turns
import UnixProgramming.Sdb.Proofs.Fatal
import UnixProgramming.Sdb.Proofs.Overlay
import UnixProgramming.Sdb.Proofs.Stepping
import UnixProgramming.Sdb.Proofs.Relocation
import UnixProgramming.Libmini.Cpu
import UnixProgramming.Libmini.Asm
import UnixProgramming.Libmini.Proofs.Jump
import UnixProgramming.Sdb.Proofs.Disasm
import UnixProgramming.Sdb.Proofs.Loading
import UnixProgramming.Sdb.Proofs.Tables
import UnixProgramming.Netstat.Main
import UnixProgramming.Sdb.Proofs.Heap
import UnixProgramming.Netstat.Proofs.Conns
import UnixProgramming.Fsmon.Monitor
import UnixProgramming.Netstat.Proofs.Attribution
import UnixProgramming.Fsmon.Proofs.Calls
import UnixProgramming.Fsmon.Proofs.Startup
import UnixProgramming.Fsmon.Proofs.Transparent
import UnixProgramming.Fsmon.Kernel
import UnixProgramming.Fsmon.Proofs.Sink
import UnixProgramming.Sdb.Proofs.Windows
import UnixProgramming.Sdb.Proofs.Cursors
import UnixProgramming.Sdb.Main
import UnixProgramming.Sdb.Proofs.Bounds
import UnixProgramming.Sdb.Proofs.Dispatch
import UnixProgramming.Sdb.Proofs.Prompt
import UnixProgramming.Lib.Numeral
import UnixProgramming.Lib.Decode
import UnixProgramming.Sdb.Proofs.Numbers
import UnixProgramming.Sdb.Proofs.Registers
import UnixProgramming.Sdb.Proofs.Sweep
import UnixProgramming.Sdb.Files
import UnixProgramming.Sdb.Proofs.Files
import UnixProgramming.Lib.SetOps
import UnixProgramming.Libmini.Proofs.Sigset
import UnixProgramming.Libmini.Calls
import UnixProgramming.Libmini.Proofs.Calls
import UnixProgramming.Libmini.Proofs.Value
import UnixProgramming.Netstat.Cmdline
import UnixProgramming.Netstat.Proofs.Cmdline
import UnixProgramming.Lib.Getopt
import UnixProgramming.Lib.Columns
import UnixProgramming.Netstat.Report
import UnixProgramming.Netstat.Proofs.Report
import UnixProgramming.Netstat.Proofs.Reading
import UnixProgramming.Lib.Lines
import UnixProgramming.Netstat.Proofs.Bounded
import UnixProgramming.Fsmon.Program
import UnixProgramming.Fsmon.Proofs.Watched
import UnixProgramming.Lib.Scan
import UnixProgramming.Sdb.Proofs.Dump
import UnixProgramming.Sdb.Proofs.Vmmap
import UnixProgramming.Sdb.Proofs.Views
import UnixProgramming.Sdb.Proofs.Transparency
import UnixProgramming.Sdb.Proofs.Visits
import UnixProgramming.Sdb.Proofs.Alone
import UnixProgramming.Libmini.Proofs.Sigaction
import UnixProgramming.Libmini.Sigaction
import UnixProgramming.Libmini.Delivery
import UnixProgramming.Libmini.Proofs.Frames
import UnixProgramming.Libmini.Proofs.Delivery
import UnixProgramming.Libmini.Proofs.Interrupted
