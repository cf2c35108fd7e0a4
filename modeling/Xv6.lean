import Xv6.Bio.Supply
import Xv6.Console.Line
import Xv6.Fs.Files
import Xv6.Kernel.Access
import Xv6.Kernel.AddressSpace
import Xv6.Kernel.Owner
import Xv6.Kernel.Unused
import Xv6.Log.Crash
import Xv6.Log.GroupCommit
import Xv6.Log.Reserve
import Xv6.Log.Waiters
import Xv6.Pipe.Fifo
import Xv6.Proc.Sleep
import Xv6.Proc.Sleeplock
import Xv6.Sh.Parser
import Xv6.Sys.Fork
import Xv6.User.Sbrk
import Xv6.Virtio.Protocol
import Xv6.Vm.Map
import Xv6.Grep.Lines
import Xv6.Console.Exact
import Xv6.Sh.Words
import Xv6.Kernel.Strings
import Xv6.Kernel.Brk
import Xv6.Kernel.ExecArgs
import Xv6.Lib.Slots
import Xv6.Fs.Table
import Xv6.Fs.Room
import Xv6.Fs.Dir
import Xv6.Fs.DirMap
import Xv6.Fs.Holding
import Xv6.Fs.Path
import Xv6.Fs.Namex
import Xv6.Memmove
import Xv6.Printf.Printint
import Xv6.Printf.Format
import Xv6.Intr.Basic
import Xv6.Intr.Inv
import Xv6.Intr.Step
import Xv6.Intr.Nesting
import Xv6.Kernel.Refs
import Xv6.Log.Replay
import Xv6.Intr.Exclusive
import Xv6.Fs.Crash
