import Xv6.Fs.Inode
import Xv6.Kernel.Machine
import Xv6.UserMem

/-!
# The kernel state of the file system beside the buffers

The inode table of `fs.c` and the user memory of each process, with the operations on them that one
process makes: accesses to the fields of an inode under its sleep-lock, and copies from user memory.
-/

namespace Xv6

open Lib Function List

abbrev IId := Fin NINODE

/-- `struct inode`: the in-memory copy of an inode. -/
structure Inode where
  dev : Nat
  inum : Nat
  ref : Nat
  lock : Option Pid
  valid : Bool
  dino : Dinode

/-! ## The state and its operations -/

structure FsSt where
  inode : IId → Inode
  mem : Pid → UserMem

inductive FsOp where
  | inode (i : IId)
  | setDino (i : IId) (x : Dinode)
  | copyin (va n : Nat)
  | panic (e : Panic)

def FsOp.Res : FsOp → Type
  | .inode _ => Inode
  | .copyin .. => Bool × List UInt8
  | .panic _ => Empty
  | .setDino .. => Unit

namespace FsSt

def setInode (s : FsSt) (i : IId) (x : Inode) : FsSt :=
  { s with inode := update s.inode i x }

def exec (p : Pid) : (o : FsOp) → FsSt → Outcome Panic (o.Res × FsSt)
  | .inode i, s => .ok (s.inode i, s)
  | .setDino i dino, s => .ok ((), s.setInode i { s.inode i with dino })
  | .copyin va n, s => .ok ((s.mem p).copyin n va n, s)
  | .panic e, _ => .panic e

end FsSt

/-- The rest of the kernel, as far as the file system uses it. -/
abbrev fsAux : Aux := ⟨⟨FsOp, FsOp.Res⟩, FsSt, FsSt.exec⟩

end Xv6
