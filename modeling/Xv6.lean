import Xv6.Lib.Prog
import Xv6.Lib.Concur
import Xv6.Lib.LinkedRing
import Xv6.Lib.Bytes
import Xv6.Lib.Ownership
import Xv6.Lib.Ring
import Xv6.Lib.Radix
import Xv6.Lib.Sep
import Xv6.Lib.Local
import Xv6.Block
import Xv6.Layout
import Xv6.UserMem
import Xv6.Bio.Cache
import Xv6.Bio.Invariant
import Xv6.Bio.Concurrent
import Xv6.Log.Basic
import Xv6.Log.Protocol
import Xv6.Log.GroupCommit
import Xv6.Log.Wakeup
import Xv6.Log.Reservation
import Xv6.Kernel.Machine
import Xv6.Kernel.Invariant
import Xv6.Kernel.Outline
import Xv6.Kernel.Rules
import Xv6.Kernel.Commit
import Xv6.Kernel.Recovery
import Xv6.Kernel.Pins
import Xv6.Kernel.CommitRun
import Xv6.Kernel.Sequential
import Xv6.Fs.Inode
import Xv6.Fs.State
import Xv6.Fs.Code
import Xv6.Fs.Image
import Xv6.Fs.Alloc
import Xv6.Proc.Table
import Xv6.Pipe.Code
import Xv6.Pipe.Outline
import Xv6.Pipe.Calls
import Xv6.Pipe.Laws
import Xv6.Proc.Code
import Xv6.Proc.Kill
import Xv6.Proc.History
import Xv6.Proc.Outline
import Xv6.Proc.Calls
import Xv6.Vm.Code
import Xv6.Vm.Kernel
import Xv6.Vm.Space
import Xv6.Vm.User
import Xv6.Vm.Files
import Xv6.Vm.Processes
import Xv6.Vm.Laws
import Xv6.Dir.Code
import Xv6.Dir.Sysfile
import Xv6.Dir.Protocol
import Xv6.Dir.Threads
import Xv6.Dir.Calls
import Xv6.Dir.Create
import Xv6.Dir.Files
import Xv6.Dir.Kept
import Xv6.Dir.Invariant
import Xv6.Dir.Steps
import Xv6.Dir.InodeSteps
import Xv6.Dir.FileSteps
import Xv6.Dir.ProcSteps
import Xv6.Dir.Sound
import Xv6.Dir.Boot
import Xv6.Dir.Table
import Xv6.Dir.OpenFiles
import Xv6.Dir.SharedOffset
import Xv6.Dir.Directory
import Xv6.Dir.Resolve
import Xv6.Dir.FullDirectory
import Xv6.Vm.Phys
import Xv6.Vm.Copy
import Xv6.Vm.Load
import Xv6.Vm.Exec
import Xv6.Sh.Code
import Xv6.Sh.Grammar
import Xv6.Sh.Parse
import Xv6.Sh.Run
import Xv6.User.Lineage
import Xv6.Sh.Wiring
import Xv6.Sh.Wired
import Xv6.Primes.Code
import Xv6.Primes.Sieve
import Xv6.Primes.Stage
import Xv6.Primes.Chain
import Xv6.Primes.Output
import Xv6.Vm.Map
import Xv6.Fs.Bmap
import Xv6.Fs.Contents
import Xv6.Fs.Blank
import Xv6.Fs.Budget
import Xv6.Read.Code
import Xv6.Read.Laws
import Xv6.Vm.Contents
import Xv6.Vm.Memory
import Xv6.Grep.Match
import Xv6.Grep.Lines
import Xv6.User.Xargs
import Xv6.Proc.Pid
import Xv6.Proc.Sleeplock
import Xv6.Proc.Ticks
import Xv6.User.Find
import Xv6.Sh.Redirect
import Xv6.Memmove
