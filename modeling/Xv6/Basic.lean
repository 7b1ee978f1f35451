/-!
# Constants and panics

The compile-time constants of `kernel/param.h` and `kernel/fs.h`, and the panics of the modelled
kernel functions.
-/

namespace Xv6

/-! ## `kernel/param.h` -/

def NOFILE : Nat := 16
def NFILE : Nat := 100
def NINODE : Nat := 50
def NDEV : Nat := 10
def MAXARG : Nat := 32
def ROOTDEV : Nat := 1
def MAXOPBLOCKS : Nat := 10
def LOGSIZE : Nat := MAXOPBLOCKS * 3
def NBUF : Nat := MAXOPBLOCKS * 3

theorem ninode_pos : 0 < NINODE := by decide

/-! ## `kernel/fs.h` -/

def ROOTINO : Nat := 1
def NDIRECT : Nat := 12
def NINDIRECT : Nat := 256
def MAXFILE : Nat := NDIRECT + NINDIRECT
def DIRSIZ : Nat := 14

/-- The types of a `struct file`. -/
inductive FileType where
  | none | pipe | inode | device
  deriving DecidableEq, Repr

/-- The panics of the modelled kernel functions. -/
inductive Panic where
  | logCommitting
  | tooBigTransaction
  | logWriteOutsideTrans
  | bgetNoBuffers
  | bwrite
  | brelse
  | ballocOutOfBlocks
  | iallocNoInodes
  | igetNoInodes
  | ilock
  | ilockNoType
  | iunlock
  | bmapOutOfRange
  | dirlookupNotDir
  | dirlookupRead
  | dirlinkRead
  | dirlink
  | isdiremptyReadi
  | unlinkNlink
  | unlinkWritei
  | createDots
  | createDirlink
  | filedup
  | fileclose
  | fileread
  | filewrite
  deriving DecidableEq, Repr

end Xv6
